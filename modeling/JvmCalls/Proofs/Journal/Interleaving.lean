import JvmCalls.Journal.Basic

/-! Counting by several workers at once. Each worker increments counters in
an order of its own, and the increments of all workers happen in some common
order. No counter tells which one it was. -/
namespace JvmCalls

/-- A common order of what several workers do: in every step one of them
does the first thing that it has left, until all are finished. -/
inductive Interleaving {α : Type} : List (List α) → List α → Prop where
  | finished {workers : List (List α)} (hNone : ∀ w ∈ workers, w = []) : Interleaving workers []
  | step {workers : List (List α)} {i : Nat} {a : α} {rest l : List α}
      (hNext : workers[i]? = some (a :: rest)) (later : Interleaving (workers.set i rest) l) :
      Interleaving workers (a :: l)

/-- A step takes one thing away from one worker, and changes nothing for the
others. -/
theorem perm_flatten_set {α : Type} {workers : List (List α)} {i : Nat} {a : α} {rest : List α}
    (h : workers[i]? = some (a :: rest)) :
    (a :: (workers.set i rest).flatten).Perm workers.flatten := by
  induction workers generalizing i with
  | nil => simp at h
  | cons first others ih =>
      cases i with
      | zero =>
          simp only [List.getElem?_cons_zero, Option.some.injEq] at h
          subst h
          exact .refl _
      | succ i =>
          simp only [List.getElem?_cons_succ] at h
          rw [List.set_cons_succ, List.flatten_cons, List.flatten_cons]
          exact List.perm_middle.symm.trans ((ih h).append_left first)

/-- Nothing is lost, done twice or made up. -/
theorem Interleaving.perm {α : Type} {workers : List (List α)} {l : List α}
    (h : Interleaving workers l) : l.Perm workers.flatten := by
  induction h with
  | finished hNone =>
      rw [List.flatten_eq_nil_iff.mpr hNone]
  | step hNext later ih => exact (ih.cons _).trans (perm_flatten_set hNext)

namespace Metrics

/-- Increments commute, those of the same counter included. This holds with
wrapping as well. -/
theorem increment_comm (m : Metrics) (a b : Counter) :
    (m.increment a).increment b = (m.increment b).increment a := by
  cases a <;> cases b <;> rfl

/-- The counters do not depend on the order of the increments. -/
theorem foldl_increment_perm {l k : List Counter} (h : l.Perm k) (m : Metrics) :
    l.foldl increment m = k.foldl increment m :=
  h.foldl_eq' (fun a _ b _ m => increment_comm m a b) m

end Metrics

/-- Events that count nothing have no part in the counters. -/
theorem Traced.counters_countsOnly {α : Type} (x : Traced α) :
    x.countsOnly.events.filterMap Event.counter? = x.events.filterMap Event.counter? := by
  rw [countsOnly, List.filterMap_filter]
  congr 1
  funext e
  cases hCounter : e.counter? <;> simp

end JvmCalls
