import JvmCalls.Journal.Basic

/-! What a journal tells in the end: how far each counter has come, and
which calls each visitor was shown. -/
namespace JvmCalls

/-- How often a counter was incremented. -/
def Counter.tally (c : Counter) (events : List Event) : Nat :=
  (events.filterMap Event.counter?).count c

/-- The call, if the event shows it to this visitor. -/
def Event.shownTo? (visitor : Nat) : Event → Option Call
  | notified v c => if v = visitor then some c else none
  | _ => none

/-- The calls that were shown to a visitor, in order. -/
def shownTo (visitor : Nat) (events : List Event) : List Call :=
  events.filterMap (Event.shownTo? visitor)

/-- A counter has been incremented as often as the events tell. It wraps at
64 bits, as the increments do. -/
theorem Metrics.get_record (m : Metrics) (events : List Event) (c : Counter) :
    (m.record events).get c = m.get c + UInt64.ofNat (c.tally events) := by
  rw [record, Counter.tally]
  induction events.filterMap Event.counter? generalizing m with
  | nil => simp
  | cons first rest ih =>
      rw [List.foldl_cons, ih, increment, get_add, List.count_cons]
      by_cases hFirst : first = c
      · rw [if_pos hFirst, if_pos (beq_iff_eq.mpr hFirst), UInt64.ofNat_add, UInt64.add_assoc,
          UInt64.add_comm 1]
        rfl
      · rw [if_neg hFirst, if_neg (by simpa using hFirst), Nat.add_zero]

theorem Counter.tally_append (c : Counter) (l k : List Event) :
    c.tally (l ++ k) = c.tally l + c.tally k := by
  rw [tally, List.filterMap_append, List.count_append]
  rfl

/-- A counter that no event names is never incremented. -/
theorem Counter.tally_eq_zero {c : Counter} {events : List Event}
    (h : ∀ e ∈ events, e ≠ .counted c) : c.tally events = 0 := by
  rw [tally, List.count_eq_zero, List.mem_filterMap]
  rintro ⟨e, he, hCounter⟩
  cases e with
  | counted d =>
      obtain rfl : d = c := Option.some.inj hCounter
      exact h _ he rfl
  | _ => cases hCounter

theorem shownTo_append (visitor : Nat) (l k : List Event) :
    shownTo visitor (l ++ k) = shownTo visitor l ++ shownTo visitor k :=
  List.filterMap_append

/-- A visitor is shown nothing by other events. -/
theorem shownTo_eq_nil {events : List Event}
    (h : ∀ e ∈ events, ∀ visitor c, e ≠ .notified visitor c) (visitor : Nat) :
    shownTo visitor events = [] := by
  apply List.filterMap_eq_nil_iff.mpr
  intro e he
  cases e with
  | notified v c => exact False.elim (h _ he v c rfl)
  | _ => rfl

end JvmCalls
