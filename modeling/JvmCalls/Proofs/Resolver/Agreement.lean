import JvmCalls.Proofs.Hierarchy.Registration
import JvmCalls.Proofs.Resolver.Pipeline
import JvmCalls.Proofs.Selection.Agreement

/-! Resolving calls on repositories that agree about their classes. Every
method gives the same calls with the same events. Only the classes may come
in another order, so that graphs have the same calls and counters the same
values. -/
namespace JvmCalls

theorem Traced.ext {α : Type} {x y : Traced α} (hValue : x.value = y.value)
    (hEvents : x.events = y.events) : x = y := by
  cases x
  cases y
  cases hValue
  cases hEvents
  rfl

namespace Resolver

/-- The resolver on another repository. -/
def on (r : Resolver) (s : Repository) : Resolver := { r with repository := s }

/-- Another repository gives the resolver the same answers: its classes
agree, and the evaluators see no difference. -/
structure Exchangeable (r : Resolver) (s : Repository) : Prop where
  agree : r.repository.Agree s
  multiType : ∀ evaluator ∈ r.multiType, evaluator r.repository = evaluator s
  particular : ∀ evaluator ∈ r.particular, evaluator r.repository = evaluator s

variable {r : Resolver} {s : Repository}

/-- An evaluator that sees no difference gives the same facts on both
repositories. -/
theorem evaluate_on {evaluator : Option Evaluator}
    (hSame : ∀ e ∈ evaluator, e r.repository = e s) :
    (r.on s).evaluate evaluator = r.evaluate evaluator := by
  funext analysis owner m
  cases evaluator with
  | none => rfl
  | some e =>
      simp only [evaluate, hSame e rfl]
      rfl

theorem events_classesOfSubtypes (r : Resolver) (ref : MethodRef) (receiver : Reference)
    (type : String) : (r.classesOfSubtypes ref receiver type).events = [] := by
  unfold classesOfSubtypes
  split
  · rw [Traced.events_gather]
    apply List.flatMap_eq_nil_iff.mpr
    intro subclass hSubclass
    apply Repository.events_selectVirtual
    have hConcrete := (List.mem_filter.mp hSubclass).2
    obtain ⟨c, hDefinition, -⟩ := (Option.any_eq_true _ _).mp hConcrete
    rw [Repository.isDefined, hDefinition]
    rfl
  · rfl

/-- The classes to visit are the registered ones, without those of libraries
if the options say so. -/
theorem classes_eq_registrations (r : Resolver) : r.classes =
    (r.repository.registrations.filter fun x =>
      r.options.includeLibraryClasses || !x.2).map Prod.fst := by
  rw [classes, Repository.definedNodes, Repository.registrations_eq, List.filterMap_filter,
    List.filterMap_filter, List.filter_filterMap, List.map_filterMap]
  apply List.filterMap_congr
  intro n _
  rw [ClassNode.isDefined]
  cases n.content with
  | none => rfl
  | some c =>
      rw [Option.map_some, Option.filter_some, Option.isSome_some, if_pos rfl]
      split
      · rfl
      · rfl

variable (h : r.Exchangeable s)

include h

/-- A target is concrete on one repository just if it is on the other. -/
theorem target_on : (r.on s).target = r.target := by
  funext signature
  unfold target
  rw [Repository.definition?_agree h.agree.view]
  rfl

/-- Virtual selection gives the same class, as the lineages are the same. -/
theorem selectVirtual_on (receiver : Option String) (name descriptor : String) :
    (r.on s).repository.selectVirtual receiver name descriptor =
      r.repository.selectVirtual receiver name descriptor :=
  (Repository.selectVirtual_agree h.agree.view receiver name descriptor).symm

/-- The subclasses are the same, in some order. -/
theorem mem_concreteSubclasses_on {type name : String} :
    name ∈ (r.on s).concreteSubclasses type ↔ name ∈ r.concreteSubclasses type := by
  rw [concreteSubclasses, concreteSubclasses, List.mem_filter, List.mem_filter,
    Repository.definition?_agree h.agree.view, Repository.mem_subclasses_agree h.agree.view]
  rfl

theorem mem_classesOfSubtypes_on {ref : MethodRef} {receiver : Reference} {type name : String} :
    name ∈ ((r.on s).classesOfSubtypes ref receiver type).value ↔
      name ∈ (r.classesOfSubtypes ref receiver type).value := by
  have hOptions : (r.on s).options = r.options := rfl
  rw [classesOfSubtypes, classesOfSubtypes, hOptions]
  split
  · simp only [Traced.value_gather, List.mem_flatMap, mem_concreteSubclasses_on h,
      selectVirtual_on h]
  · rfl

/-- The subclasses may come in another order, but the targets are sorted. So
even the order of the calls of a site is the same. -/
theorem dispatchOn_on (ref : MethodRef) (receiver : Reference) :
    (r.on s).dispatchOn ref receiver = r.dispatchOn ref receiver := by
  have hOwn (type : String) : (r.on s).classesOfType ref type = r.classesOfType ref type := by
    rw [classesOfType, classesOfType, selectVirtual_on h]
  have hTargets (own : List String) (type : String) :
      sortedNames (own ++ ((r.on s).classesOfSubtypes ref receiver type).value) =
        sortedNames (own ++ (r.classesOfSubtypes ref receiver type).value) := by
    apply sortedNames_congr
    intro name
    rw [List.mem_append, List.mem_append, mem_classesOfSubtypes_on h]
  by_cases hNull : receiver.nullness = .always
  · simp only [dispatchOn, hNull, if_true]
  · simp only [dispatchOn, hNull, if_false, hOwn]
    -- The order of subclasses would show in the events, but they have none.
    apply Traced.ext
    · exact congrArg (List.map _) (hTargets _ _)
    · simp only [Traced.events_bind, Traced.events_pure, events_classesOfSubtypes]

/-- All kinds of selection agree, each by its own lemma. -/
theorem selected_on : (r.on s).selected = r.selected := by
  funext i kind ref d operands
  have hDispatch : (r.on s).dispatch ref = r.dispatch ref := by
    funext receivers
    rw [dispatch, dispatch, funext (dispatchOn_on h ref)]
  unfold selected
  rw [hDispatch, Repository.selectStatic_agree h.agree.view,
    Repository.selectSpecial_agree h.agree.view]
  rfl

theorem call_on : (r.on s).call = r.call := by
  funext i signature nullness runtimeTypeDependent operands
  unfold call
  rw [target_on h]
  rfl

/-- An invocation makes the same calls with the same events. All that it
asks the repository is a selection or a look-up. -/
theorem invocationCalls_on : (r.on s).invocationCalls = r.invocationCalls := by
  have hReference : (r.on s).referenceCalls = r.referenceCalls := by
    funext i kind ref d
    unfold referenceCalls
    rw [selected_on h, call_on h]
  have hMalformed : (r.on s).malformedCall = r.malformedCall := by
    funext i e
    unfold malformedCall
    rw [call_on h]
  have hDynamic : (r.on s).dynamicCalls = r.dynamicCalls := by
    funext i descriptor d
    unfold dynamicCalls
    rw [call_on h]
  funext i kind index
  unfold invocationCalls
  rw [hReference, hMalformed, hDynamic]

/-- So does an instruction. -/
theorem callsOfInstr_on : (r.on s).callsOfInstr = r.callsOfInstr := by
  funext owner signature code facts p
  unfold callsOfInstr
  rw [invocationCalls_on h]
  rfl

theorem enter_on : (r.on s).enter = r.enter := by
  have hMultiType : (r.on s).evaluate (r.on s).multiType = r.evaluate r.multiType :=
    evaluate_on h.multiType
  have hParticular : (r.on s).evaluate (r.on s).particular = r.evaluate r.particular :=
    evaluate_on h.particular
  funext owner m c state
  unfold enter
  rw [hMultiType, hParticular]
  rfl

/-- A method is visited in the same way, whatever was visited before. -/
theorem visitMethod_on : (r.on s).visitMethod = r.visitMethod := by
  have hInstr : (r.on s).visitInstr = r.visitInstr := by
    funext owner signature code work p
    unfold visitInstr
    rw [callsOfInstr_on h]
  funext owner work m
  unfold visitMethod
  rw [hInstr, enter_on h]
  rfl

/-- The classes to visit are the same, in some order. This is all that is
left of the order of registration. -/
theorem classes_on_perm : (r.on s).classes.Perm r.classes := by
  rw [classes_eq_registrations, classes_eq_registrations]
  exact (h.agree.registrations_perm.symm.filter _).map _

end Resolver

namespace CallGraph

variable {r : Resolver}

theorem ofClass_on {s : Repository} (h : r.Exchangeable s) : ofClass (r.on s) = ofClass r := by
  funext c
  unfold ofClass Resolver.visitClass
  rw [Resolver.visitMethod_on h]
  rfl

theorem ofClasses_on {s : Repository} (h : r.Exchangeable s) :
    ofClasses (r.on s) = ofClasses r := by
  funext classes
  unfold ofClasses ofEach
  rw [ofClass_on h]

/-- The calls of a graph are those of its classes, in their order.
Each class is resolved on its own, so that no history is shared. -/
theorem calls_ofClasses (classes : List ClassFile) :
    (ofClasses r classes).value.calls = classes.flatMap fun c => (r.callsOfClass [] c).value := by
  have hValue : (ofClasses r classes).value = mergeAll (ofEach r classes).value := rfl
  rw [hValue, value_ofEach, mergeAll, foldl_merge_ofClass, calls_addAll, Traced.value_gather]
  rfl

/-- What is logged about a graph as a whole counts nothing. -/
theorem counters_ofClasses (classes : List ClassFile) :
    (ofClasses r classes).events.filterMap Event.counter? =
      (Traced.gather classes (r.callsOfClass [])).events.filterMap Event.counter? := by
  rw [← counters_ofEach]
  simp [ofClasses, Traced.log, Traced.emit, List.filterMap_cons, Event.counter?]

theorem record_ofClasses (m : Metrics) (classes : List ClassFile) :
    m.record (ofClasses r classes).events =
      m.record (Traced.gather classes (r.callsOfClass [])).events := by
  rw [Metrics.record, counters_ofClasses, Metrics.record]

/-- The order of classes is that of the calls only, and it does not show in
the counters. -/
theorem ofClasses_perm {l k : List ClassFile} (hPerm : l.Perm k) :
    (ofClasses r l).value.calls.Perm (ofClasses r k).value.calls ∧
      ∀ m : Metrics, m.record (ofClasses r l).events = m.record (ofClasses r k).events := by
  constructor
  · rw [calls_ofClasses, calls_ofClasses]
    exact hPerm.flatMap_right _
  · intro m
    rw [record_ofClasses, record_ofClasses, Traced.events_gather, Traced.events_gather]
    exact Metrics.foldl_increment_perm ((hPerm.flatMap_right _).filterMap _) m

/-- The graphs of both repositories have the same calls, and the counters
come to the same values. -/
theorem ofRepository_on {s : Repository} (h : r.Exchangeable s) :
    (ofRepository r).value.calls.Perm (ofRepository (r.on s)).value.calls ∧
      ∀ m : Metrics,
        m.record (ofRepository r).events = m.record (ofRepository (r.on s)).events := by
  rw [ofRepository, ofRepository, ofClasses_on h]
  exact ofClasses_perm (Resolver.classes_on_perm h).symm

end CallGraph

/-- The evaluations of the resolver were done ahead of time, so that they do
not see the repository. -/
def Resolver.EvaluatedAhead (r : Resolver) : Prop :=
  (∀ evaluator ∈ r.multiType, ∃ p : Precomputed, evaluator = p.evaluate) ∧
    ∀ evaluator ∈ r.particular, ∃ p : Precomputed, evaluator = p.evaluate

/-- Evaluations that were done ahead of time have no part in the
repository. -/
theorem Resolver.EvaluatedAhead.exchangeable {r : Resolver} (h : r.EvaluatedAhead)
    {s s' : Repository} (hAgree : s.Agree s') : (r.on s).Exchangeable s' where
  agree := hAgree
  multiType evaluator hMem := by
    obtain ⟨p, rfl⟩ := h.1 evaluator hMem
    rfl
  particular evaluator hMem := by
    obtain ⟨p, rfl⟩ := h.2 evaluator hMem
    rfl

/-- The order in which classes of distinct names are registered shows in
nothing but the order of calls. Both repositories know the classes,
selection gives the same answers, every method the same calls, and the whole
repository the same calls and counters. -/
theorem load_order_irrelevant {files files' : List (ClassFile × Bool)}
    (hPerm : files.Perm files') (hDistinct : (files.map fun x => x.1.name).Nodup) :
    ∃ r r', Repository.load files = .ok r ∧ Repository.load files' = .ok r' ∧
      (∀ x, r.registered? x.1.name = some x ↔ x ∈ files) ∧
      (∀ ref, r.selectStatic ref = r'.selectStatic ref) ∧
      (∀ caller ref, r.selectSpecial caller ref = r'.selectSpecial caller ref) ∧
      (∀ receiver name descriptor,
        r.selectVirtual receiver name descriptor = r'.selectVirtual receiver name descriptor) ∧
      (∀ owner name descriptor,
        r.maximallySpecific owner name descriptor = r'.maximallySpecific owner name descriptor) ∧
      ∀ resolver : Resolver, resolver.EvaluatedAhead →
        (∀ owner work m, (resolver.on r).visitMethod owner work m =
          (resolver.on r').visitMethod owner work m) ∧
        (CallGraph.ofRepository (resolver.on r)).value.calls.Perm
          (CallGraph.ofRepository (resolver.on r')).value.calls ∧
        ∀ m : Metrics, m.record (CallGraph.ofRepository (resolver.on r)).events =
          m.record (CallGraph.ofRepository (resolver.on r')).events := by
  obtain ⟨r, r', hLoad, hLoad', hRegistered, hAgree⟩ := Repository.load_agree hPerm hDistinct
  refine ⟨r, r', hLoad, hLoad', hRegistered, Repository.selectStatic_agree hAgree.view,
    Repository.selectSpecial_agree hAgree.view, Repository.selectVirtual_agree hAgree.view,
    Repository.maximallySpecific_agree hAgree.view, ?_⟩
  intro resolver hAhead
  have hExchangeable := hAhead.exchangeable hAgree
  refine ⟨?_, CallGraph.ofRepository_on hExchangeable⟩
  intro owner work m
  rw [← Resolver.visitMethod_on hExchangeable]
  rfl

/-- A class that calls the method `f` on itself and inherits it. -/
def inheritingCaller : ClassFile where
  flags := default
  name := "t/A"
  superclass := some "t/B"
  interfaces := []
  constants := { entries := #[some (.utf8 "t/A"), some (.classRef 1), some (.utf8 "f"),
    some (.utf8 "()V"), some (.nameAndType 3 4), some (.methodRef 2 5)] }
  methods := [⟨default, "g", "()V",
    some ⟨1, 1, [⟨⟨0⟩, .invokeVirtual 6⟩, ⟨⟨3⟩, .ret .void⟩], [], []⟩⟩]

/-- A class before its superclass. -/
def childFirst : List (ClassFile × Bool) :=
  [(inheritingCaller, false), (CallGraph.malformedCaller "t/B", true)]

/-- Libraries are resolved too, and no method was evaluated ahead of
time. -/
def childFirstResolver : Resolver where
  repository := {}
  options := { includeLibraryClasses := true }
  multiType := some (Precomputed.evaluate {})

/-- The class calls the method of its superclass, whichever of them comes
first. -/
theorem childFirst_order :
    childFirst.Perm childFirst.reverse ∧ (childFirst.map fun x => x.1.name).Nodup ∧
      childFirstResolver.EvaluatedAhead ∧
      ∃ r r', Repository.load childFirst = .ok r ∧ Repository.load childFirst.reverse = .ok r' ∧
        (r.selectVirtual (some "t/A") "f" "()V").value = ["t/B"] ∧
        (r'.selectVirtual (some "t/A") "f" "()V").value = ["t/B"] ∧
        (CallGraph.ofRepository (childFirstResolver.on r)).value.calls.length = 2 ∧
        (CallGraph.ofRepository (childFirstResolver.on r)).value.calls.Perm
          (CallGraph.ofRepository (childFirstResolver.on r')).value.calls ∧
        Metrics.record {} (CallGraph.ofRepository (childFirstResolver.on r)).events =
          Metrics.record {} (CallGraph.ofRepository (childFirstResolver.on r')).events := by
  have hPerm : childFirst.Perm childFirst.reverse := (List.reverse_perm childFirst).symm
  have hDistinct : (childFirst.map fun x => x.1.name).Nodup := by decide
  have hAhead : childFirstResolver.EvaluatedAhead := by
    constructor
    · intro evaluator hMem
      exact ⟨{}, (Option.some.inj hMem).symm⟩
    · intro evaluator hMem
      cases hMem
  have hSelected : (Repository.load childFirst).toOption.map (fun r =>
      (r.selectVirtual (some "t/A") "f" "()V").value) = some ["t/B"] := by decide +kernel
  have hCount : (Repository.load childFirst).toOption.map (fun r =>
      (CallGraph.ofRepository (childFirstResolver.on r)).value.calls.length) = some 2 := by
    simp only [CallGraph.ofRepository, CallGraph.calls_ofClasses]
    decide +kernel
  obtain ⟨r, r', hLoad, hLoad', -, -, -, hVirtual, -, hResolver⟩ :=
    load_order_irrelevant hPerm hDistinct
  obtain ⟨-, hCalls, hCounters⟩ := hResolver childFirstResolver hAhead
  rw [hLoad] at hSelected hCount
  have hTarget := Option.some.inj hSelected
  exact ⟨hPerm, hDistinct, hAhead, r, r', hLoad, hLoad', hTarget, hVirtual _ _ _ ▸ hTarget,
    Option.some.inj hCount, hCalls, hCounters {}⟩

end JvmCalls
