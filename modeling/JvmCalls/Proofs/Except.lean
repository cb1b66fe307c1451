import Mathlib.Data.List.Forall2

/-! Computations that may fail: what their success, or the error of a list
of them, says about their parts. -/
namespace JvmCalls

variable {ε α β : Type} {f : α → Except ε β}

theorem bind_eq_ok_iff {γ : Type} {x : Except ε γ} {g : γ → Except ε β} {b : β} :
    x >>= g = .ok b ↔ ∃ a, x = .ok a ∧ g a = .ok b := by
  cases x with
  | error e => simp [bind, Except.bind]
  | ok a => simp [bind, Except.bind]

/-- A result that is only changed fails where the computation of it does. -/
theorem error_of_map {g : α → β} {x : Except ε α} {e : ε}
    (h : (do return g (← x)) = Except.error e) : x = .error e := by
  cases x with
  | error cause =>
      cases h
      rfl
  | ok a => cases h

/-- A list of computations succeeds just if each of them does, with its
result in the same place. -/
theorem mapM_eq_ok_iff {l : List α} {k : List β} :
    l.mapM f = .ok k ↔ List.Forall₂ (fun a b => f a = .ok b) l k := by
  induction l generalizing k with
  | nil =>
      simp only [List.mapM_nil, pure, Except.pure, Except.ok.injEq, List.forall₂_nil_left_iff]
      exact eq_comm
  | cons a rest ih =>
      simp only [List.mapM_cons, List.forall₂_cons_left_iff, bind_eq_ok_iff, ih, pure, Except.pure,
        Except.ok.injEq]
      constructor
      · rintro ⟨first, hFirst, others, hOthers, rfl⟩
        exact ⟨first, others, hFirst, hOthers, rfl⟩
      · rintro ⟨first, others, hFirst, hOthers, rfl⟩
        exact ⟨first, hFirst, others, hOthers, rfl⟩

/-- Where a list of computations fails, the error is that of one of them.
Which one that is does not matter here. -/
theorem exists_of_mapM_error {l : List α} {e : ε} (h : l.mapM f = .error e) :
    ∃ a ∈ l, f a = .error e := by
  induction l with
  | nil => cases h
  | cons a rest ih =>
      rw [List.mapM_cons] at h
      cases hHead : f a with
      | error e' =>
          rw [hHead] at h
          cases h
          exact ⟨a, List.mem_cons_self, hHead⟩
      | ok first =>
          cases hTail : rest.mapM f with
          | error e' =>
              rw [hHead, hTail] at h
              cases h
              obtain ⟨b, hMem, hError⟩ := ih hTail
              exact ⟨b, List.mem_cons_of_mem a hMem, hError⟩
          | ok others =>
              rw [hHead, hTail] at h
              cases h

end JvmCalls
