import JvmCalls.Proofs.Hierarchy.Inheritance
import JvmCalls.Resolver.Calls
import Mathlib

/-! Dispatch of virtual and interface calls misses no target and invents
none. The targets are described by inheritance between names alone, so
cycles, placeholders and several ways to the same class need no special
cases. -/
namespace JvmCalls

namespace Selected

theorem firstOfEach_cons (a : Selected) (l : List Selected) :
    firstOfEach (a :: l) = a :: firstOfEach (l.filter fun b => b.owner ≠ a.owner) := by
  simp [firstOfEach, List.eraseDupsBy_cons]

/-- Leaving out repetitions loses no class. What may be lost is a
nullness. -/
theorem mem_firstOfEach {l : List Selected} {owner : String} :
    owner ∈ (firstOfEach l).map Selected.owner ↔ owner ∈ l.map Selected.owner := by
  -- The rest is filtered before it is searched, so the induction is on the length.
  induction hLength : l.length using Nat.strongRecOn generalizing l with
  | ind n ih =>
      cases l with
      | nil => rfl
      | cons a l =>
          have hShort := List.length_filter_le (fun b => decide (b.owner ≠ a.owner)) l
          rw [List.length_cons] at hLength
          rw [firstOfEach_cons, List.map_cons, List.map_cons, List.mem_cons, List.mem_cons,
            ih _ (by omega) rfl]
          by_cases hSame : owner = a.owner
          · simp [hSame]
          · simp only [hSame, false_or, List.mem_map, List.mem_filter, decide_eq_true_eq]
            constructor
            · rintro ⟨b, ⟨hb, _⟩, hOwner⟩
              exact ⟨b, hb, hOwner⟩
            · rintro ⟨b, hb, hOwner⟩
              exact ⟨b, ⟨hb, hOwner ▸ hSame⟩, hOwner⟩

/-- No class is left twice. -/
theorem nodup_firstOfEach (l : List Selected) : ((firstOfEach l).map Selected.owner).Nodup := by
  induction hLength : l.length using Nat.strongRecOn generalizing l with
  | ind n ih =>
      cases l with
      | nil => exact List.Pairwise.nil
      | cons a l =>
          have hShort := List.length_filter_le (fun b => decide (b.owner ≠ a.owner)) l
          rw [List.length_cons] at hLength
          rw [firstOfEach_cons, List.map_cons, List.nodup_cons, mem_firstOfEach]
          refine ⟨?_, ih _ (by omega) _ rfl⟩
          intro hMem
          obtain ⟨b, hb, hOwner⟩ := List.mem_map.mp hMem
          have hOther := (List.mem_filter.mp hb).2
          exact of_decide_eq_true hOther hOwner

end Selected

namespace Repository

/-- A virtual call on an object of a class runs the method of `owner`. There
may be several such classes where default methods conflict. -/
def Selects (r : Repository) (ref : MethodRef) (type owner : String) : Prop :=
  owner ∈ (r.selectVirtual (some type) ref.name ref.descriptor).value

/-- A class that is defined, is no interface and inherits from another. An
abstract class counts as well. -/
def ConcreteBelow (r : Repository) (type subclass : String) : Prop :=
  (∃ c, r.definition? subclass = some c ∧ c.isInterface = false) ∧
    r.hierarchy.Inherits subclass type

end Repository

namespace Resolver

/-- The classes whose method a call may run on a receiver, where the
repository and the receiver are all that is known. -/
inductive DispatchesTo (r : Resolver) (ref : MethodRef) (receiver : Reference) : String → Prop where
  /-- Nothing runs on null. The class that is referred to stands for the call. -/
  | null : receiver.nullness = .always → DispatchesTo r ref receiver ref.owner
  | own {owner : String} : receiver.nullness ≠ .always →
      r.repository.Selects ref (receiver.typeName.getD ref.owner) owner →
      DispatchesTo r ref receiver owner
  /-- Where nothing is selected, the type stands for itself. -/
  | unselected : receiver.nullness ≠ .always →
      (∀ owner, ¬ r.repository.Selects ref (receiver.typeName.getD ref.owner) owner) →
      DispatchesTo r ref receiver (receiver.typeName.getD ref.owner)
  | inherited {subclass owner : String} : receiver.nullness ≠ .always →
      r.options.includeSubclasses = true → receiver.mayExtend = true →
      receiver.typeName.getD ref.owner ≠ objectName →
      r.repository.ConcreteBelow (receiver.typeName.getD ref.owner) subclass →
      r.repository.Selects ref subclass owner → DispatchesTo r ref receiver owner

variable {r : Resolver} {ref : MethodRef}

/-- The subclasses to dispatch on are the concrete classes below the type,
apart from the type itself. -/
theorem mem_concreteSubclasses {type subclass : String} :
    subclass ∈ r.concreteSubclasses type ↔
      subclass ≠ type ∧ r.repository.ConcreteBelow type subclass := by
  simp only [concreteSubclasses, List.mem_filter, Repository.subclasses,
    Hierarchy.mem_subclasses, Option.any_eq_true, Repository.ConcreteBelow, Bool.not_eq_true']
  constructor
  · rintro ⟨⟨hNe, hInherits⟩, hDefined⟩
    exact ⟨hNe, hDefined, hInherits⟩
  · rintro ⟨hNe, hDefined, hInherits⟩
    exact ⟨⟨hNe, hInherits⟩, hDefined⟩

/-- A type is dispatched on by selection, and stands for itself where
nothing is selected. -/
theorem mem_classesOfType {type owner : String} :
    owner ∈ (r.classesOfType ref type).value ↔
      r.repository.Selects ref type owner ∨
        (∀ other, ¬ r.repository.Selects ref type other) ∧ owner = type := by
  simp only [classesOfType, Traced.value_bind, Traced.value_pure, Repository.Selects]
  cases hFound : (r.repository.selectVirtual (some type) ref.name ref.descriptor).value with
  | nil => simp
  | cons first rest =>
      rw [if_neg (by simp)]
      constructor
      · exact .inl
      · rintro (hMem | ⟨hNone, _⟩)
        · exact hMem
        · exact False.elim (hNone first List.mem_cons_self)

/-- Subclasses are dispatched on only if the receiver may be one of them,
and never below the root. -/
theorem mem_classesOfSubtypes {receiver : Reference} {type owner : String} :
    owner ∈ (r.classesOfSubtypes ref receiver type).value ↔
      r.options.includeSubclasses = true ∧ receiver.mayExtend = true ∧ type ≠ objectName ∧
        ∃ subclass ∈ r.concreteSubclasses type, r.repository.Selects ref subclass owner := by
  unfold classesOfSubtypes
  split
  · next hAsked =>
      simp only [Bool.and_eq_true, bne_iff_ne] at hAsked
      simp [Traced.value_gather, Repository.Selects, hAsked]
  · next hAsked =>
      simp only [Bool.and_eq_true, bne_iff_ne] at hAsked
      rw [Traced.value_pure]
      constructor
      · intro hMem
        cases hMem
      · rintro ⟨hSubclasses, hExtend, hType, _⟩
        exact False.elim (hAsked ⟨⟨hSubclasses, hExtend⟩, hType⟩)

/-- A type on a cycle inherits from itself, and is left out of its
subclasses. Nothing is missed, as the type is dispatched on first. -/
theorem mem_dispatchOn {receiver : Reference} {owner : String} :
    owner ∈ (r.dispatchOn ref receiver).value.map Selected.owner ↔
      r.DispatchesTo ref receiver owner := by
  unfold dispatchOn
  split
  · next hNull =>
      rw [Traced.value_pure, List.map_singleton, List.mem_singleton]
      constructor
      · rintro rfl
        exact .null hNull
      · intro hTo
        cases hTo with
        | null => rfl
        | own hNull' => exact False.elim (hNull' hNull)
        | unselected hNull' => exact False.elim (hNull' hNull)
        | inherited hNull' => exact False.elim (hNull' hNull)
  · next hNull =>
      simp only [Traced.value_bind, Traced.value_pure, List.map_map, Function.comp_def,
        List.map_id', sortedNames, mem_sortedDistinct, List.mem_append, mem_classesOfType,
        mem_classesOfSubtypes]
      constructor
      · rintro ((hOwn | ⟨hNone, rfl⟩) | ⟨hSubclasses, hExtend, hType, subclass, hMem, hSelects⟩)
        · exact .own hNull hOwn
        · exact .unselected hNull hNone
        · have hBelow := (mem_concreteSubclasses.mp hMem).2
          exact .inherited hNull hSubclasses hExtend hType hBelow hSelects
      · intro hTo
        cases hTo with
        | null hNull' => exact False.elim (hNull hNull')
        | own _ hOwn => exact .inl (.inl hOwn)
        | unselected _ hNone => exact .inl (.inr ⟨hNone, rfl⟩)
        | @inherited subclass _ _ hSubclasses hExtend hType hBelow hSelects =>
            by_cases hSame : subclass = receiver.typeName.getD ref.owner
            · exact .inl (.inl (hSame ▸ hSelects))
            · have hMem := mem_concreteSubclasses.mpr ⟨hSame, hBelow⟩
              exact .inr ⟨hSubclasses, hExtend, hType, subclass, hMem, hSelects⟩

/-- A target keeps the signature that it was selected by, be it concrete or
symbolic. -/
theorem signature_target (s : MethodSignature) : (r.target s).value.signature = s := by
  unfold target
  split
  · split <;> rfl
  · rfl

/-- A call is made of every complete signature, whatever the options. -/
theorem value_call {i : Invocation} {s : MethodSignature} (hComplete : s.isComplete = true)
    (nullness : Nullness) (dependent : Bool) (operands : Operands) :
    ∃ call, (r.call i s nullness dependent operands).value = [call] ∧
      call.caller = i.location ∧ call.targetSignature = s := by
  rw [Resolver.call, if_neg (by simp [hComplete])]
  exact ⟨_, rfl, rfl, signature_target s⟩

/-- A call is reported with its caller and its target, whether its values
are cleared or not. -/
theorem value_report (c : Call) :
    ∃ call, (r.report c).value = [call] ∧ call.caller = c.caller ∧
      call.targetSignature = c.targetSignature := by
  refine ⟨_, rfl, ?_⟩
  split <;> exact ⟨rfl, rfl⟩

/-- Each target of a virtual or interface call is the target of a call that
is reported. -/
theorem mem_referenceCalls {i : Invocation} {kind : InvokeKind} {d : MethodDescriptor}
    {owner : String} (hKind : kind = .virtual ∨ kind = .interface)
    (hOwner : owner ∈ (r.dispatch ref (i.facts.receivers i.location.address d.parameterSlots
      ref.owner)).value.map Selected.owner) :
    ∃ call ∈ (r.referenceCalls i kind ref d).value, call.caller = i.location ∧
      call.targetSignature = .of owner ref.name ref.descriptor := by
  obtain ⟨t, ht, rfl⟩ := List.mem_map.mp hOwner
  obtain ⟨call, hCall, hCaller, hTarget⟩ := value_call (r := r) (i := i)
    (s := .of t.owner ref.name ref.descriptor) rfl t.nullness
    (1 < (i.facts.receivers i.location.address d.parameterSlots ref.owner).length)
    (i.facts.operands i.location.address d (kind != .static))
  refine ⟨call, ?_, hCaller, hTarget⟩
  rw [referenceCalls, Traced.value_bind, Traced.value_gather]
  rcases hKind with rfl | rfl
  · exact List.mem_flatMap.mpr ⟨t, ht, hCall ▸ List.mem_singleton.mpr rfl⟩
  · exact List.mem_flatMap.mpr ⟨t, ht, hCall ▸ List.mem_singleton.mpr rfl⟩

/-- An invocation whose reference can be read makes the calls of the
reference. -/
theorem invocationCalls_eq {i : Invocation} {kind : InvokeKind} {index : PoolIndex}
    {d : MethodDescriptor} (hKind : kind ≠ .dynamic)
    (hRef : i.owner.constants.methodRef index = .ok ref)
    (hDescriptor : ref.parsedDescriptor = .ok d) :
    r.invocationCalls i kind index = r.referenceCalls i kind ref d := by
  cases kind with
  | dynamic => exact False.elim (hKind rfl)
  | _ => simp [invocationCalls, hRef, hDescriptor, bind, Except.bind, pure, Except.pure]

/-- A virtual or interface call of a method reference that can be read. Both
kinds are dispatched alike. -/
structure VirtualSite (c : ClassFile) (p : PlacedInstr) (ref : MethodRef) (d : MethodDescriptor) :
    Prop where
  invokes : ∃ kind index, p.instr.invocation? = some (kind, index) ∧
    (kind = .virtual ∨ kind = .interface) ∧ c.constants.methodRef index = .ok ref
  described : ref.parsedDescriptor = .ok d

/-- Every target of a virtual or interface call is reported where the call
stands. -/
theorem mem_callsOfInstr {c : ClassFile} {p : PlacedInstr} {d : MethodDescriptor}
    {facts : MethodFacts} {owner : String} (hSite : VirtualSite c p ref d)
    (hOwner : owner ∈ (r.dispatch ref (facts.receivers p.address d.parameterSlots
      ref.owner)).value.map Selected.owner) (signature : MethodSignature) (code : Code) :
    ∃ call ∈ (r.callsOfInstr c signature code facts p).value,
      call.caller = ⟨signature, p.address, code.lineAt? p.address⟩ ∧
      call.targetSignature = .of owner ref.name ref.descriptor := by
  obtain ⟨⟨kind, index, hInvokes, hKind, hRef⟩, hDescriptor⟩ := hSite
  obtain ⟨call, hCall, hCaller, hTarget⟩ := mem_referenceCalls (r := r)
    (i := ⟨c, facts, ⟨signature, p.address, code.lineAt? p.address⟩, p.instr⟩) hKind hOwner
  obtain ⟨shown, hShown, hShownCaller, hShownTarget⟩ := value_report (r := r) call
  refine ⟨shown, ?_, hShownCaller.trans hCaller, hShownTarget.trans hTarget⟩
  rw [callsOfInstr, hInvokes]
  simp only [Traced.value_bind, Traced.value_gather]
  have hReference : kind ≠ .dynamic := by
    rintro rfl
    simp at hKind
  rw [invocationCalls_eq hReference hRef hDescriptor]
  exact List.mem_flatMap.mpr ⟨call, hCall, hShown ▸ List.mem_singleton.mpr rfl⟩

/-- Every target of a virtual or interface call in the code of a method is
reported. -/
theorem mem_callsOfMethod {c : ClassFile} {m : MethodInfo} {p : PlacedInstr} {code : Code}
    {d : MethodDescriptor} {owner : String} {asked : History}
    (hAdmitted : (r.isAdmitted asked c m).value = true)
    (hCode : m.code = some code) (hPlaced : p ∈ code.instrs) (hSite : VirtualSite c p ref d)
    (hOwner : owner ∈ (r.dispatch ref ((r.facts c m code).value.receivers p.address
      d.parameterSlots ref.owner)).value.map Selected.owner) :
    ∃ call ∈ (r.callsOfMethod asked c m).value,
      call.caller = ⟨m.signature c, p.address, code.lineAt? p.address⟩ ∧
      call.targetSignature = .of owner ref.name ref.descriptor := by
  obtain ⟨call, hCall, hCaller, hTarget⟩ := mem_callsOfInstr hSite hOwner (m.signature c) code
  refine ⟨call, ?_, hCaller, hTarget⟩
  rw [callsOfMethod, hCode]
  simp only [Traced.value_bind, hAdmitted, if_true, Traced.value_gather]
  exact List.mem_flatMap.mpr ⟨p, hPlaced, hCall⟩

/-- Without evaluators a receiver is of the class that is referred to, or
extends it. -/
theorem receivers_of_no_evaluator {c : ClassFile} {m : MethodInfo} {code : Code}
    (hMultiType : r.multiType = none) (hParticular : r.particular = none) (a : Address)
    (depth : Nat) (owner : String) :
    (r.facts c m code).value.receivers a depth owner = [.extensible owner] := by
  simp [facts, evaluate, hMultiType, hParticular, MethodFacts.receivers,
    MethodFacts.foundReferences]

/-- The targets of a dispatch are distinct and are exactly those of its
receivers. In particular, what an object of any class may run where its
declared type is `ref.owner` is reported, if subclasses are included and no
evaluator narrows the receivers. -/
theorem dispatch_exact (r : Resolver) (ref : MethodRef) :
    (∀ receivers : List Reference,
      ((r.dispatch ref receivers).value.map Selected.owner).Nodup ∧
      ∀ owner, owner ∈ (r.dispatch ref receivers).value.map Selected.owner ↔
        ∃ receiver ∈ receivers, r.DispatchesTo ref receiver owner) ∧
    ∀ (asked : History) (c : ClassFile) (m : MethodInfo) (code : Code) (p : PlacedInstr)
      (d : MethodDescriptor),
      m.code = some code → p ∈ code.instrs → VirtualSite c p ref d →
      (r.isAdmitted asked c m).value = true → r.multiType = none → r.particular = none →
      r.options.includeSubclasses = true → ref.owner ≠ objectName →
      ∀ type owner, type = ref.owner ∨ r.repository.ConcreteBelow ref.owner type →
        r.repository.Selects ref type owner →
        ∃ call ∈ (r.callsOfMethod asked c m).value,
          call.caller = ⟨m.signature c, p.address, code.lineAt? p.address⟩ ∧
          call.targetSignature = .of owner ref.name ref.descriptor := by
  have hTargets (receivers : List Reference) (owner : String) :
      owner ∈ (r.dispatch ref receivers).value.map Selected.owner ↔
        ∃ receiver ∈ receivers, r.DispatchesTo ref receiver owner := by
    rw [dispatch, Traced.value_bind, Traced.value_pure, Selected.mem_firstOfEach,
      Traced.value_gather, List.map_flatMap, List.mem_flatMap]
    simp only [mem_dispatchOn]
  refine ⟨fun receivers => ⟨Selected.nodup_firstOfEach _, hTargets receivers⟩, ?_⟩
  intro asked c m code p d hCode hPlaced hSite hAdmitted hMultiType hParticular hSubclasses
    hObject type owner hType hSelects
  apply mem_callsOfMethod hAdmitted hCode hPlaced hSite
  rw [receivers_of_no_evaluator hMultiType hParticular, hTargets]
  refine ⟨.extensible ref.owner, List.mem_singleton.mpr rfl, ?_⟩
  have hNull : (Reference.extensible ref.owner).nullness ≠ .always := by
    intro hAlways
    cases hAlways
  rcases hType with rfl | hBelow
  · exact .own hNull hSelects
  · exact .inherited hNull hSubclasses rfl hObject hBelow hSelects

end Resolver

/-- A class that implements an interface and extends its own subclass. -/
def cyclicParent : ClassFile where
  flags := default
  name := "t/B"
  superclass := some "t/X"
  interfaces := ["t/I"]
  constants := {}
  methods := []

def cyclicCaller : MethodInfo :=
  ⟨default, "f", "()V", some ⟨0, 0, [⟨⟨0⟩, .invokeInterface 6 1⟩, ⟨⟨5⟩, .ret .void⟩], [], []⟩⟩

/-- A class that calls the method `g` of the interface and implements it. -/
def cyclicChild : ClassFile where
  flags := default
  name := "t/X"
  superclass := some "t/B"
  interfaces := []
  constants := { entries := #[some (.utf8 "t/I"), some (.classRef 1), some (.utf8 "g"),
    some (.utf8 "()V"), some (.nameAndType 3 4), some (.interfaceMethodRef 2 5)] }
  methods := [⟨default, "g", "()V", none⟩, cyclicCaller]

/-- Two classes that extend each other, below an interface that is not
defined. -/
def cyclicProgram : Resolver where
  repository := ⟨{
    nodes := #[.placeholder 1 "t/I", .define 2 cyclicParent false, .define 3 cyclicChild false]
    links := #[⟨1, 0, .interface⟩, ⟨1, 2, .superclass⟩, ⟨2, 1, .superclass⟩]
    distinct := by decide
    bounded := by decide }, 3, 2⟩
  options := { includeSubclasses := true }

theorem cyclicProgram_dispatch :
    ((cyclicProgram.dispatch ⟨"t/I", "g", "()V", true⟩ [.extensible "t/I"]).value.map
      Selected.owner).Nodup ∧
    ∃ call ∈ (cyclicProgram.callsOfMethod [] cyclicChild cyclicCaller).value,
      call.caller = ⟨cyclicCaller.signature cyclicChild, ⟨0⟩, none⟩ ∧
      call.targetSignature = .of "t/X" "g" "()V" := by
  have hSelected : (cyclicProgram.repository.selectVirtual (some "t/X") "g" "()V").value =
      ["t/X"] := by cbv
  have hSelects : cyclicProgram.repository.Selects ⟨"t/I", "g", "()V", true⟩ "t/X" "t/X" := by
    rw [Repository.Selects, hSelected]
    exact List.mem_singleton.mpr rfl
  have hParent : cyclicProgram.repository.hierarchy.Linked "t/X" "t/B" :=
    ⟨⟨2, 1, .superclass⟩, by simp [cyclicProgram], rfl, rfl⟩
  have hInterface : cyclicProgram.repository.hierarchy.Linked "t/B" "t/I" :=
    ⟨⟨1, 0, .interface⟩, by simp [cyclicProgram], rfl, rfl⟩
  have hBelow : cyclicProgram.repository.ConcreteBelow "t/I" "t/X" :=
    ⟨⟨cyclicChild, by cbv, by decide⟩, .tail (.single hParent) hInterface⟩
  have hSite : Resolver.VirtualSite cyclicChild ⟨⟨0⟩, .invokeInterface 6 1⟩
      ⟨"t/I", "g", "()V", true⟩ ⟨[], .void⟩ :=
    ⟨⟨.interface, 6, rfl, .inr rfl, by cbv⟩, by cbv⟩
  obtain ⟨hTargets, hReported⟩ := Resolver.dispatch_exact cyclicProgram ⟨"t/I", "g", "()V", true⟩
  refine ⟨(hTargets _).1, ?_⟩
  exact hReported [] cyclicChild cyclicCaller _ ⟨⟨0⟩, .invokeInterface 6 1⟩ ⟨[], .void⟩ rfl
    (by decide) hSite rfl rfl rfl rfl (by decide) "t/X" "t/X" (.inr hBelow) hSelects

end JvmCalls
