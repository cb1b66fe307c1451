/-! Sorted lists without repetition, as the listing of a finite set. -/
namespace JvmCalls

/-- The distinct members of a list in ascending order. -/
def sortedDistinct {α : Type} [BEq α] (le : α → α → Bool) (l : List α) : List α :=
  l.eraseDups.mergeSort le

theorem mem_sortedDistinct {α : Type} [BEq α] [LawfulBEq α] {le : α → α → Bool} {l : List α}
    {a : α} : a ∈ sortedDistinct le l ↔ a ∈ l := by
  simp [sortedDistinct, List.mem_eraseDups]

/-- Class names in ascending order, each once. -/
def sortedNames (names : List String) : List String :=
  sortedDistinct (fun a b => decide (a ≤ b)) names

end JvmCalls
