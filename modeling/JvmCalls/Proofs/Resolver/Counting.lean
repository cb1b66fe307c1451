import JvmCalls.Proofs.Except
import JvmCalls.Proofs.Journal.Tally
import JvmCalls.Proofs.Resolver.Dispatch
import JvmCalls.Proofs.Resolver.Events

/-! How an invocation is counted. Each call that it makes is counted once,
as concrete or as symbolic, and an invocation without calls is counted as
skipped. Those are the dynamic and the malformed ones, and only if the
options leave out incomplete calls. -/
namespace JvmCalls

namespace Traced

variable {α β : Type}

/-- The events that concern calls. -/
def callEvents (x : Traced α) : List Event := x.events.filter Event.concernsCalls

@[simp] theorem callEvents_pure (a : α) : (pure a : Traced α).callEvents = [] := rfl

@[simp] theorem callEvents_bind (x : Traced α) (f : α → Traced β) :
    (x >>= f).callEvents = x.callEvents ++ (f x.value).callEvents := by
  rw [callEvents, events_bind, List.filter_append]
  rfl

@[simp] theorem callEvents_gather (l : List α) (f : α → Traced (List β)) :
    (gather l f).callEvents = l.flatMap fun a => (f a).callEvents := by
  rw [callEvents, events_gather, List.filter_flatMap]
  rfl

theorem callEvents_of_unconcerned {x : Traced α} (h : x.All fun e => e.concernsCalls = false) :
    x.callEvents = [] := by
  apply List.filter_eq_nil_iff.mpr
  intro e he
  rw [h e he]
  exact Bool.false_ne_true

/-- What is quiet neither shows calls nor counts them. -/
theorem callEvents_of_quiet {x : Traced α} (h : x.All Event.IsQuiet) : x.callEvents = [] :=
  callEvents_of_unconcerned h.unconcerned

/-- Counters of calls can be read off the events that concern calls. All
others may be left out before. -/
theorem tally_callEvents {x : Traced α} {c : Counter} (h : c.concernsCalls = true) :
    c.tally x.callEvents = c.tally x.events := by
  rw [Counter.tally, Counter.tally, callEvents, List.count_filterMap, List.count_filterMap,
    List.countP_filter]
  apply List.countP_congr
  intro e _
  cases e with
  | counted d =>
      by_cases hSame : d = c
      · simp [hSame, Event.concernsCalls, h]
      · simp [hSame, Event.counter?]
  | notified visitor call => simp [Event.counter?]
  | logged level message => simp [Event.counter?]
  | asked owner m => simp [Event.counter?]

/-- So can the calls that a visitor is shown. -/
theorem shownTo_callEvents (x : Traced α) (visitor : Nat) :
    shownTo visitor x.callEvents = shownTo visitor x.events := by
  rw [shownTo, shownTo, callEvents, List.filterMap_filter]
  apply List.filterMap_congr
  intro e _
  cases e with
  | notified v call => rfl
  | counted c => simp [Event.shownTo?]
  | logged level message => rfl
  | asked owner m => rfl

end Traced

def CallTarget.counter : CallTarget → Counter
  | concrete _ _ _ => .concreteCall
  | symbolic _ => .symbolicCall

namespace Call

/-- The counter of a call. -/
def counter (c : Call) : Counter := c.target.counter

/-- How the calls of an invocation are counted. An invocation without calls
is counted as skipped. -/
def countedAll : List Call → List Event
  | [] => [.counted .incompleteCallSkipped]
  | calls => calls.map fun c => .counted c.counter

theorem countedAll_of_ne_nil {calls : List Call} (h : calls ≠ []) :
    countedAll calls = calls.map fun c => .counted c.counter := by
  cases calls with
  | nil => exact False.elim (h rfl)
  | cons c rest => rfl

end Call

/-- The constant of an invocation is not what it should be, or its
descriptor is none. -/
def ClassFile.isMalformed (c : ClassFile) (kind : InvokeKind) (index : PoolIndex) : Bool :=
  match kind with
  | .dynamic => !(c.constants.invokeDynamic index >>= fun x => MethodDescriptor.ofString x.2).isOk
  | _ => !(c.constants.methodRef index >>= MethodRef.parsedDescriptor).isOk

/-- There is always a receiver: where none is known, the class that is
referred to stands for it. -/
theorem MethodFacts.receivers_ne_nil (facts : MethodFacts) (a : Address) (depth : Nat)
    (owner : String) : facts.receivers a depth owner ≠ [] := by
  unfold receivers
  split
  · split
    · exact List.cons_ne_nil _ _
    · assumption
  · assumption

namespace Resolver

variable {r : Resolver} {i : Invocation} {ref : MethodRef}

/-- Every receiver leads somewhere. -/
theorem exists_dispatchesTo (receiver : Reference) :
    ∃ owner, r.DispatchesTo ref receiver owner := by
  by_cases hNull : receiver.nullness = .always
  · exact ⟨_, .null hNull⟩
  · by_cases hSelects : ∃ owner,
        r.repository.Selects ref (receiver.typeName.getD ref.owner) owner
    · obtain ⟨owner, hOwner⟩ := hSelects
      exact ⟨owner, .own hNull hOwner⟩
    · exact ⟨_, .unselected hNull (not_exists.mp hSelects)⟩

/-- So a dispatch always has a target. -/
theorem dispatch_ne_nil {receivers : List Reference} (h : receivers ≠ []) :
    (r.dispatch ref receivers).value ≠ [] := by
  obtain ⟨receiver, hReceiver⟩ := List.exists_mem_of_ne_nil receivers h
  obtain ⟨owner, hTo⟩ : ∃ owner, r.DispatchesTo ref receiver owner := exists_dispatchesTo receiver
  have hOwner : owner ∈ (r.dispatch ref receivers).value.map Selected.owner := by
    rw [dispatch, Traced.value_bind, Traced.value_pure, Selected.mem_firstOfEach,
      Traced.value_gather, List.map_flatMap]
    exact List.mem_flatMap.mpr ⟨receiver, hReceiver, mem_dispatchOn.mpr hTo⟩
  intro hNone
  rw [hNone] at hOwner
  cases hOwner

/-- A method reference has a target, whatever the repository knows of it.
A class that is missing stands for itself. -/
theorem selected_ne_nil (kind : InvokeKind) (d : MethodDescriptor) (operands : Operands) :
    (r.selected i kind ref d operands).value.1 ≠ [] := by
  unfold selected
  split
  · exact List.cons_ne_nil _ _
  · simp only [Traced.value_bind, Traced.value_pure, ne_eq, List.map_eq_nil_iff]
    split
    · exact List.cons_ne_nil _ _
    · next hSome => simpa using hSome
  · exact dispatch_ne_nil (i.facts.receivers_ne_nil _ _ _)

/-- A target is counted once, by its kind. -/
theorem callEvents_target (s : MethodSignature) :
    (r.target s).callEvents = [.counted (r.target s).value.counter] := by
  unfold target
  split
  · next owner name descriptor _ _ _ =>
      cases owner.findMethod? name descriptor with
      | none => rfl
      | some m => rfl
  · rfl

section Call

variable (s : MethodSignature) (nullness : Nullness) (dependent : Bool) (operands : Operands)

/-- A call is left out just if its signature is incomplete and the options
say so. -/
theorem value_call_eq_nil_iff : (r.call i s nullness dependent operands).value = [] ↔
    r.options.skipIncompleteCalls = true ∧ s.isComplete = false := by
  unfold call
  split
  · next hSkip => simpa using hSkip
  · next hSkip => simpa using hSkip

/-- A call is counted where it is made, and a call that is left out as
skipped. -/
theorem callEvents_call (h : i.facts.Answers i.location.address) :
    (r.call i s nullness dependent operands).callEvents =
      Call.countedAll (r.call i s nullness dependent operands).value := by
  unfold call
  split
  · rfl
  · simp only [Traced.callEvents_bind, Traced.callEvents_pure, callEvents_target,
      Traced.callEvents_of_quiet (quiet_isControlFlowDependent h), List.append_nil]
    rfl

end Call

/-- How an invocation is counted, and when it makes no call. It is the
specification that all kinds of invocations share. -/
structure Counts (r : Resolver) (malformed dynamic : Bool) (x : Traced (List Call)) : Prop where
  events : x.callEvents =
    (if malformed then [.counted .malformedInvocation] else []) ++ Call.countedAll x.value
  skipped : x.value = [] ↔
    r.options.skipIncompleteCalls = true ∧ (dynamic = true ∨ malformed = true)

/-- A malformed invocation is counted as such, besides what its call
counts. -/
theorem malformedCall_counts (h : i.facts.Answers i.location.address) (e : ClassFileError)
    (dynamic : Bool) : r.Counts true dynamic (r.malformedCall i e) where
  events := by
    simp only [malformedCall, Traced.callEvents_bind, callEvents_call _ _ _ _ h]
    rfl
  skipped := by
    rw [malformedCall, Traced.value_bind, Traced.value_bind, value_call_eq_nil_iff]
    simp [MethodSignature.isComplete, MethodSignature.unknown]

/-- A dynamic invocation is never complete, so that it is skipped if the
options say so. -/
theorem dynamicCalls_counts (h : i.facts.Answers i.location.address) (descriptor : String)
    (d : MethodDescriptor) : r.Counts false true (r.dynamicCalls i descriptor d) where
  events := callEvents_call _ _ _ _ h
  skipped := by
    rw [dynamicCalls, value_call_eq_nil_iff]
    simp [MethodSignature.isComplete, dynamicSignature]

/-- A method reference is complete, so none of its targets is skipped. There
is a target, so that there is a call. -/
theorem referenceCalls_counts (h : i.facts.Answers i.location.address) (kind : InvokeKind)
    (d : MethodDescriptor) : r.Counts false false (r.referenceCalls i kind ref d) := by
  have hMade (t : Selected) (dependent : Bool) (operands : Operands) :
      (r.call i (.of t.owner ref.name ref.descriptor) t.nullness dependent operands).value ≠
        [] := by
    obtain ⟨call, hCall, -⟩ := value_call (r := r) (i := i)
      (s := .of t.owner ref.name ref.descriptor) rfl t.nullness dependent operands
    rw [hCall]
    exact List.cons_ne_nil _ _
  have hSome : (r.referenceCalls i kind ref d).value ≠ [] := by
    rw [referenceCalls, Traced.value_bind, Traced.value_gather, ne_eq, List.flatMap_eq_nil_iff]
    intro hNone
    obtain ⟨t, ht⟩ := List.exists_mem_of_ne_nil _ (selected_ne_nil (r := r) (i := i) kind d
      (i.facts.operands i.location.address d (kind != .static)))
    exact hMade t _ _ (hNone t ht)
  refine ⟨?_, by simp [hSome]⟩
  rw [Call.countedAll_of_ne_nil hSome, referenceCalls, Traced.callEvents_bind,
    Traced.callEvents_of_quiet (quiet_selected i kind ref d _), Traced.callEvents_gather,
    Traced.value_bind, Traced.value_gather, List.map_flatMap]
  apply List.flatMap_congr
  intro t _
  rw [callEvents_call _ _ _ _ h, Call.countedAll_of_ne_nil (hMade t _ _)]

theorem invocationCalls_counts_dynamic (h : i.facts.Answers i.location.address)
    (index : PoolIndex) :
    r.Counts (i.owner.isMalformed .dynamic index) true (r.invocationCalls i .dynamic index) := by
  unfold invocationCalls ClassFile.isMalformed
  cases i.owner.constants.invokeDynamic index with
  | error e => exact malformedCall_counts h e true
  | ok constant =>
      simp only [bind, Except.bind]
      cases MethodDescriptor.ofString constant.2 with
      | error e => exact malformedCall_counts h e true
      | ok d => exact dynamicCalls_counts h constant.2 d

/-- An invocation whose constant cannot be read is malformed, be it the
reference or its descriptor. -/
theorem invocationCalls_eq_malformedCall {kind : InvokeKind} {index : PoolIndex}
    {e : ClassFileError} (hKind : kind ≠ .dynamic)
    (hError : i.owner.constants.methodRef index >>= MethodRef.parsedDescriptor = .error e) :
    r.invocationCalls i kind index = r.malformedCall i e := by
  have hReference :
      (i.owner.constants.methodRef index >>= fun ref =>
        ref.parsedDescriptor >>= fun d => pure (ref, d)) = .error e := by
    cases hRef : i.owner.constants.methodRef index with
    | error cause =>
        rw [hRef] at hError
        cases hError
        rfl
    | ok ref =>
        rw [hRef] at hError
        show (ref.parsedDescriptor >>= _) = _
        rw [show ref.parsedDescriptor = .error e from hError]
        rfl
  cases kind with
  | dynamic => exact False.elim (hKind rfl)
  | _ => simp only [invocationCalls, hReference]

theorem invocationCalls_counts_reference (h : i.facts.Answers i.location.address)
    {kind : InvokeKind} (hKind : kind ≠ .dynamic) (index : PoolIndex) :
    r.Counts (i.owner.isMalformed kind index) false (r.invocationCalls i kind index) := by
  have hMalformed : i.owner.isMalformed kind index =
      !(i.owner.constants.methodRef index >>= MethodRef.parsedDescriptor).isOk := by
    cases kind with
    | dynamic => exact False.elim (hKind rfl)
    | _ => rfl
  rw [hMalformed]
  cases hResult : i.owner.constants.methodRef index >>= MethodRef.parsedDescriptor with
  | error e =>
      rw [invocationCalls_eq_malformedCall hKind hResult]
      exact malformedCall_counts h e false
  | ok d =>
      obtain ⟨ref, hRef, hDescriptor⟩ := bind_eq_ok_iff.mp hResult
      rw [invocationCalls_eq hKind hRef hDescriptor]
      exact referenceCalls_counts h kind d

/-- Every invocation is counted in this way, whatever kind it is. -/
theorem invocationCalls_counts (h : i.facts.Answers i.location.address) (kind : InvokeKind)
    (index : PoolIndex) : r.Counts (i.owner.isMalformed kind index) (kind == .dynamic)
      (r.invocationCalls i kind index) := by
  by_cases hKind : kind = .dynamic
  · rw [hKind]
    exact invocationCalls_counts_dynamic h index
  · rw [beq_false_of_ne hKind]
    exact invocationCalls_counts_reference h hKind index

end Resolver

end JvmCalls
