import JvmCalls.Resolver.Visit

/-! What a resolver lets others see while it works. Before a call is made,
all events are quiet: they show no call and count none. Before a call is
shown, all events are routine: they show no call. Neither kind includes the
question whether a method is admitted, nor the warning that the dominators
of an instruction are not available, as long as questions about dominators
are answered. -/
namespace JvmCalls

/-- Counters of what became of invocations. -/
def Counter.concernsCalls : Counter → Bool
  | concreteCall | symbolicCall | incompleteCallSkipped | malformedInvocation => true
  | _ => false

namespace Event

/-- The event shows a call or counts what became of an invocation. -/
def concernsCalls : Event → Bool
  | counted c => c.concernsCalls
  | notified _ _ => true
  | _ => false

/-- The warning about an instruction whose dominators are not available. -/
def unavailable (a : Address) (e : FlowError) : Event :=
  .logged .warn ("dominators of " ++ toString a ++ " not available: " ++ e.message)

/-- An event that shows no call, asks for no method and is not that warning.
Routine events may count calls. -/
structure IsRoutine (e : Event) : Prop where
  available : ∀ a error, e ≠ unavailable a error
  unasked : e.asked? = none
  unseen : ∀ visitor call, e ≠ .notified visitor call

/-- An event that does not concern calls, asks for no method and is not that
warning. All that happens before a call is made is quiet. -/
structure IsQuiet (e : Event) : Prop where
  available : ∀ a error, e ≠ unavailable a error
  unasked : e.asked? = none
  unconcerned : e.concernsCalls = false

/-- What is quiet is routine. -/
theorem IsQuiet.routine {e : Event} (h : e.IsQuiet) : e.IsRoutine where
  available := h.available
  unasked := h.unasked
  unseen visitor call hSame := by
    have hUnconcerned := h.unconcerned
    rw [hSame] at hUnconcerned
    cases hUnconcerned

@[simp] theorem isRoutine_counted (c : Counter) : (counted c).IsRoutine where
  available a error hSame := by cases hSame
  unasked := rfl
  unseen visitor call hSame := by cases hSame

theorem isQuiet_counted {c : Counter} (h : c.concernsCalls = false) : (counted c).IsQuiet where
  available a error hSame := by cases hSame
  unasked := rfl
  unconcerned := h

@[simp] theorem isQuiet_missingClass : (counted .missingClass).IsQuiet :=
  isQuiet_counted rfl

/-- What is logged is quiet unless it is a warning. -/
theorem isQuiet_logged {level : Level} (h : level ≠ .warn) (message : String) :
    (logged level message).IsQuiet where
  available a error hSame := by
    cases hSame
    exact h rfl
  unasked := rfl
  unconcerned := rfl

@[simp] theorem isQuiet_debug (message : String) : (logged .debug message).IsQuiet :=
  isQuiet_logged (by decide) message

@[simp] theorem isQuiet_trace (message : String) : (logged .trace message).IsQuiet :=
  isQuiet_logged (by decide) message

/-- The messages of a resolver are told apart by how they start. A warning
that starts otherwise cannot be the one about dominators. -/
theorem isQuiet_warning {message : String} (h : message.toList.head? ≠ some 'd') :
    (logged .warn message).IsQuiet where
  available a error hSame := by
    rw [unavailable, logged.injEq] at hSame
    apply h
    rw [hSame.2]
    simp [String.toList_append]
  unasked := rfl
  unconcerned := rfl

end Event

namespace Traced

variable {α β : Type} {P : Event → Prop}

/-- All events are of this kind. It is how computations are said to leave
something alone. -/
def All (P : Event → Prop) (x : Traced α) : Prop := ∀ e ∈ x.events, P e

@[simp] theorem all_pure (a : α) : (pure a : Traced α).All P := by
  intro e he
  cases he

@[simp] theorem all_bind {x : Traced α} {f : α → Traced β} :
    (x >>= f).All P ↔ x.All P ∧ (f x.value).All P := by
  simp [All, or_imp, forall_and]

@[simp] theorem all_gather {l : List α} {f : α → Traced (List β)} :
    (gather l f).All P ↔ ∀ a ∈ l, (f a).All P := by
  simp only [All, events_gather, List.mem_flatMap]
  constructor
  · intro h a ha e he
    exact h e ⟨a, ha, he⟩
  · intro h e he
    obtain ⟨a, ha, he⟩ := he
    exact h a ha e he

@[simp] theorem all_emit {e : Event} : (emit e).All P ↔ P e := by
  simp [All, emit]

@[simp] theorem all_count {c : Counter} : (count c).All P ↔ P (.counted c) :=
  all_emit

@[simp] theorem all_log {level : Level} {message : String} :
    (log level message).All P ↔ P (.logged level message) :=
  all_emit

@[simp] theorem all_emitAll {events : List Event} : (emitAll events).All P ↔ ∀ e ∈ events, P e :=
  Iff.rfl

theorem All.routine {x : Traced α} (h : x.All Event.IsQuiet) : x.All Event.IsRoutine :=
  fun e he => (h e he).routine

theorem All.unconcerned {x : Traced α} (h : x.All Event.IsQuiet) :
    x.All fun e => e.concernsCalls = false :=
  fun e he => (h e he).unconcerned

/-- The methods that the hook is asked about. -/
def asked (x : Traced α) : History := x.events.filterMap Event.asked?

@[simp] theorem asked_bind (x : Traced α) (f : α → Traced β) :
    (x >>= f).asked = x.asked ++ (f x.value).asked :=
  List.filterMap_append

/-- The questions of several computations, in their order. -/
theorem asked_gather (l : List α) (f : α → Traced (List β)) :
    (gather l f).asked = l.flatMap fun a => (f a).asked := by
  rw [asked, events_gather, List.filterMap_flatMap]
  rfl

theorem asked_of_all {x : Traced α} (h : x.All fun e => e.asked? = none) : x.asked = [] :=
  List.filterMap_eq_nil_iff.mpr h

end Traced

namespace Repository

variable {r : Repository}

@[simp] theorem quiet_reportMissing (call name : String) :
    (reportMissing call name).All Event.IsQuiet := by
  simp [reportMissing]

@[simp] theorem quiet_selectStatic (ref : MethodRef) :
    (r.selectStatic ref).All Event.IsQuiet := by
  unfold selectStatic
  split <;> simp

/-- Selection counts missing classes and warns of cycles, and nothing
else. -/
@[simp] theorem quiet_selectVirtual (receiver : Option String) (name descriptor : String) :
    (r.selectVirtual receiver name descriptor).All Event.IsQuiet := by
  unfold selectVirtual
  split
  · simp
  · split
    · split <;> simp
    · simp

@[simp] theorem quiet_isSubclassOf (name ancestor : String) :
    (r.isSubclassOf name ancestor).All Event.IsQuiet := by
  unfold isSubclassOf
  simp only
  split
  · simp
  · split
    · simp
    · split
      · simp only [Traced.all_bind, Traced.all_log, Traced.all_pure, and_true]
        exact Event.isQuiet_warning (by simp [String.toList_append])
      · simp

@[simp] theorem quiet_specialStart (caller : ClassFile) (ref : MethodRef) :
    (r.specialStart caller ref).All Event.IsQuiet := by
  simp only [specialStart, Traced.all_bind, startsAtSuperclass]
  constructor
  · split <;> simp
  · split <;> simp

@[simp] theorem quiet_selectSpecial (caller : ClassFile) (ref : MethodRef) :
    (r.selectSpecial caller ref).All Event.IsQuiet := by
  simp only [selectSpecial, Traced.all_bind, quiet_specialStart, true_and]
  split
  · simp
  · split
    · simp
    · split
      · split <;> simp
      · split <;> simp

end Repository

/-- An analysis names the instructions that it visits, and nothing else. It
counts nothing and shows nothing. -/
theorem DominatorWork.quiet_run (c : Code) (ignoreExceptions : Bool) (w : DominatorWork) :
    (w.run c ignoreExceptions).All Event.IsQuiet := by
  fun_induction run c ignoreExceptions w with
  | case1 => exact Traced.all_pure _
  | case2 => exact Traced.all_pure _
  | case3 => exact Traced.all_pure _
  | case4 => exact Traced.all_log.mpr (Event.isQuiet_trace _)
  | case5 sets a rest source p hFound hPosition visited next hVisit outcome ih =>
      intro e he
      cases List.mem_cons.mp he with
      | inl hVisited => exact hVisited ▸ Event.isQuiet_trace _
      | inr hLater => exact ih e hLater

/-- An analysis is quiet, whether it succeeds or not. -/
theorem Dominators.quiet_analyze (d : Dominators) (signature : MethodSignature) (c : Code) :
    (d.analyze signature c).All Event.IsQuiet := by
  have hTable : (DominatorTable.ofCode c d.ignoreExceptions).All Event.IsQuiet := by
    unfold DominatorTable.ofCode
    split
    · exact Traced.all_pure _
    · simp [DominatorWork.quiet_run]
  simp only [analyze, Traced.all_bind, Traced.all_log, Event.isQuiet_debug, hTable, true_and]
  split <;> simp

namespace Resolver

variable {r : Resolver}

/-- Asking for a method is all that is seen of the hook. -/
theorem isAdmitted_asks (asked : History) (owner : ClassFile) (m : MethodInfo) :
    (r.isAdmitted asked owner m).All fun e => e = .asked owner m ∨ e.IsQuiet := by
  unfold isAdmitted
  split
  · simp
  · simp only [Traced.all_bind, Traced.all_emit, true_or, true_and]
    split <;> simp

theorem unconcerned_isAdmitted (asked : History) (owner : ClassFile) (m : MethodInfo) :
    (r.isAdmitted asked owner m).All fun e => e.concernsCalls = false := by
  intro e he
  cases isAdmitted_asks asked owner m e he with
  | inl hAsked => exact hAsked ▸ rfl
  | inr hQuiet => exact hQuiet.unconcerned

/-- The errors of evaluations are counted by counters of their own. -/
theorem concernsCalls_counters (e : EvaluationError) :
    ∀ c ∈ e.counters, c.concernsCalls = false := by
  cases e <;> simp [EvaluationError.counters, Counter.concernsCalls]

/-- Both evaluations have a name that starts like no other warning about
instructions. -/
theorem quiet_evaluate (evaluator : Option Evaluator) {analysis : String}
    (h : analysis = "multi-type" ∨ analysis = "particular") (owner : ClassFile) (m : MethodInfo) :
    (r.evaluate evaluator analysis owner m).All Event.IsQuiet := by
  unfold evaluate
  split
  · simp
  · split
    · simp
    · simp only [Traced.all_bind, Traced.all_log, Traced.all_emitAll, Traced.all_pure, and_true]
      constructor
      · apply Event.isQuiet_warning
        cases h with
        | inl hName => simp [hName, String.toList_append]
        | inr hName => simp [hName, String.toList_append]
      · intro e he
        obtain ⟨c, hc, rfl⟩ := List.mem_map.mp he
        exact Event.isQuiet_counted (concernsCalls_counters _ c hc)

@[simp] theorem quiet_reportDominatorFailure (signature : MethodSignature) (e : FlowError) :
    (reportDominatorFailure signature e).All Event.IsQuiet := by
  simp only [reportDominatorFailure, Traced.all_bind, Traced.all_log, Traced.all_count]
  exact ⟨Event.isQuiet_warning (by simp [String.toList_append]), Event.isQuiet_counted rfl⟩

/-- All that is found out about a method before its calls are made is
quiet. -/
theorem quiet_facts (owner : ClassFile) (m : MethodInfo) (c : Code) :
    (r.facts owner m c).All Event.IsQuiet := by
  have hDominators : (r.dominators (m.signature owner) c).All Event.IsQuiet := by
    unfold dominators
    split
    · simp only [Traced.all_bind, Dominators.quiet_analyze, true_and]
      split <;> simp
    · simp
  simp [facts, quiet_evaluate, hDominators]

/-- A dispatch is quiet. The calls that it leads to are made afterwards. -/
@[simp] theorem quiet_dispatch (ref : MethodRef) (receivers : List Reference) :
    (r.dispatch ref receivers).All Event.IsQuiet := by
  have hSubtypes (receiver : Reference) (type : String) :
      (r.classesOfSubtypes ref receiver type).All Event.IsQuiet := by
    unfold classesOfSubtypes
    split <;> simp
  have hReceiver (receiver : Reference) : (r.dispatchOn ref receiver).All Event.IsQuiet := by
    unfold dispatchOn
    split
    · simp
    · simp [classesOfType, hSubtypes]
  simp [dispatch, hReceiver]

theorem quiet_selected (i : Invocation) (kind : InvokeKind) (ref : MethodRef)
    (d : MethodDescriptor) (operands : Operands) :
    (r.selected i kind ref d operands).All Event.IsQuiet := by
  unfold selected
  split <;> simp

/-- A target is counted, and nothing is shown yet. -/
theorem routine_target (s : MethodSignature) : (r.target s).All Event.IsRoutine := by
  unfold target
  split
  · split
    · simp
    · simp [(Event.isQuiet_debug _).routine]
  · simp

end Resolver

/-- Whether an instruction is on all paths to the exit can be told, if there
was an analysis. Without one there is no question. -/
def MethodFacts.Answers (facts : MethodFacts) (a : Address) : Prop :=
  ∀ d, facts.dominators = some d → ∃ answer, d.dominatesExit a = .ok answer

namespace Resolver

variable {r : Resolver} {i : Invocation}

/-- If the question is answered, there is no warning, which would not be
quiet. -/
theorem quiet_isControlFlowDependent {facts : MethodFacts} {a : Address}
    (h : facts.Answers a) : (r.isControlFlowDependent facts a).All Event.IsQuiet := by
  unfold isControlFlowDependent
  split
  · split
    · simp
    · rename_i d hDominators
      obtain ⟨answer, hAnswer⟩ := h d hDominators
      simp [hAnswer]
  · simp

/-- Making a call shows it to nobody. -/
theorem routine_call (h : i.facts.Answers i.location.address) (s : MethodSignature)
    (nullness : Nullness) (dependent : Bool) (operands : Operands) :
    (r.call i s nullness dependent operands).All Event.IsRoutine := by
  unfold call
  split
  · simp [(Event.isQuiet_trace _).routine]
  · simp [routine_target, (quiet_isControlFlowDependent h).routine]

/-- The calls of an invocation are shown only after all of them were
made. -/
theorem routine_invocationCalls (h : i.facts.Answers i.location.address) (kind : InvokeKind)
    (index : PoolIndex) : (r.invocationCalls i kind index).All Event.IsRoutine := by
  have hMalformed (e : ClassFileError) : (r.malformedCall i e).All Event.IsRoutine := by
    simp only [malformedCall, Traced.all_bind, Traced.all_log, Traced.all_count,
      Event.isRoutine_counted, routine_call h, and_true]
    exact (Event.isQuiet_warning (by simp [String.toList_append])).routine
  have hReference (ref : MethodRef) (d : MethodDescriptor) :
      (r.referenceCalls i kind ref d).All Event.IsRoutine := by
    simp [referenceCalls, (quiet_selected i kind ref d _).routine, routine_call h]
  unfold invocationCalls
  split
  · split
    · exact routine_call h _ _ _ _
    · exact hMalformed _
  · split
    · exact hReference _ _
    · exact hMalformed _

end Resolver

end JvmCalls
