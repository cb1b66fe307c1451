import Mathlib.Data.List.Basic

/-! Members of a list that are chosen by their positions. -/
namespace JvmCalls

theorem filterMap_getElem?_range {α : Type} (l : List α) :
    (List.range l.length).filterMap (fun i => l[i]?) = l := by
  induction l with
  | nil => rfl
  | cons a l ih =>
      rw [List.length_cons, List.range_succ_eq_map, List.filterMap_cons, List.filterMap_map]
      exact congrArg (a :: ·) ih

/-- Choosing members by position is choosing them by what they are, if the
choices agree. -/
theorem filterMap_filter_range {α : Type} (l : List α) {chosen : Nat → Bool} {q : α → Bool}
    (hAgree : ∀ i a, l[i]? = some a → chosen i = q a) :
    ((List.range l.length).filter chosen).filterMap (fun i => l[i]?) = l.filter q := by
  calc ((List.range l.length).filter chosen).filterMap (fun i => l[i]?)
      = (List.range l.length).filterMap (fun i => if chosen i then l[i]? else none) :=
        List.filterMap_filter
    _ = (List.range l.length).filterMap (fun i => l[i]?.filter q) := by
        apply List.filterMap_congr
        intro i _
        cases hAt : l[i]? with
        | none => simp
        | some a => simp [hAgree i a hAt, Option.filter]
    _ = ((List.range l.length).filterMap (fun i => l[i]?)).filter q := List.filter_filterMap.symm
    _ = l.filter q := by rw [filterMap_getElem?_range]

/-- Positions that all hold a member keep them in order. -/
theorem getElem?_filterMap {α β : Type} {f : α → Option β} {l : List α}
    (h : ∀ a ∈ l, (f a).isSome = true) (k : Nat) : (l.filterMap f)[k]? = l[k]?.bind f := by
  induction l generalizing k with
  | nil => rfl
  | cons a rest ih =>
      obtain ⟨b, hb⟩ := Option.isSome_iff_exists.mp (h a List.mem_cons_self)
      rw [List.filterMap_cons_some hb]
      cases k with
      | zero => simp [hb]
      | succ k => exact ih (fun a ha => h a (List.mem_cons_of_mem _ ha)) k

end JvmCalls
