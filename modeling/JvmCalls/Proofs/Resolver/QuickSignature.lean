import JvmCalls.Proofs.Resolver.Postprocessing
import JvmCalls.Proofs.Selection.Lineage

/-! What an instruction alone tells about its calls. It is read without a
repository and without values, but whatever a resolver knows about them, its
calls have the name and the descriptor that the instruction tells. Only
their class may be another one, and for a static call it is a superclass of
the class that is named. -/
namespace JvmCalls

/-- The class of a static call is the one that is named, or one of its
superclasses. -/
theorem Repository.reaches_selectStatic (r : Repository) (ref : MethodRef) :
    Relation.ReflTransGen (fun name parent => r.superclass? name = some parent) ref.owner
      (r.selectStatic ref).value := by
  unfold selectStatic
  split
  · cases hFound : (r.definedLineage ref.owner).find? (r.declares ref.name ref.descriptor) with
    | none => exact .refl
    | some owner =>
        obtain ⟨before, hClimbs, -⟩ := find?_definedLineage_eq_some_iff.mp hFound
        exact hClimbs.reaches (List.mem_append_right before (List.mem_singleton_self owner))
  · exact .refl

namespace CallSite

/-- The descriptor in the constant of an invocation, if the constant is what
it should be. -/
def descriptor (s : CallSite) : Except ClassFileError String :=
  match s.kind with
  | .dynamic => do return (← s.owner.constants.invokeDynamic s.index).2
  | _ => do return (← s.owner.constants.methodRef s.index).descriptor

/-- The descriptor of an invocation as it is parsed. A constant may be there
and have a text that is none. -/
def parsedDescriptor (s : CallSite) : Except ClassFileError MethodDescriptor :=
  s.descriptor >>= MethodDescriptor.ofString

/-- What the instruction of an invocation tells about its calls. -/
def quickSignature (s : CallSite) : MethodSignature := s.owner.quickSignature s.placed.instr

/-- The instruction is an invocation of this kind with this constant. Sites
that are found in code always are. -/
def IsInvocation (s : CallSite) : Prop := s.placed.instr.invocation? = some (s.kind, s.index)

variable {s : CallSite}

theorem invokeDynamic_of_error {e : ClassFileError} (hKind : s.kind = .dynamic)
    (h : s.descriptor = .error e) : s.owner.constants.invokeDynamic s.index = .error e := by
  rw [descriptor, hKind] at h
  exact error_of_map h

theorem methodRef_of_error {e : ClassFileError} (hKind : s.kind ≠ .dynamic)
    (h : s.descriptor = .error e) : s.owner.constants.methodRef s.index = .error e := by
  unfold descriptor at h
  split at h
  · next hDynamic => exact False.elim (hKind hDynamic)
  · exact error_of_map h

/-- The constant of an invocation with a descriptor: a dynamic call site or
a method. -/
inductive Reads (s : CallSite) (d : MethodDescriptor) : Prop where
  | dynamic (name text : String) (kind : s.kind = .dynamic)
      (found : s.owner.constants.invokeDynamic s.index = .ok (name, text))
      (parsed : MethodDescriptor.ofString text = .ok d)
  | reference (ref : MethodRef) (kind : s.kind ≠ .dynamic)
      (found : s.owner.constants.methodRef s.index = .ok ref)
      (parsed : ref.parsedDescriptor = .ok d)

/-- Where the descriptor can be parsed, the constant is one of these two. -/
theorem reads_of_parsedDescriptor {d : MethodDescriptor} (h : s.parsedDescriptor = .ok d) :
    s.Reads d := by
  obtain ⟨text, hText, hParsed⟩ := bind_eq_ok_iff.mp h
  unfold descriptor at hText
  split at hText
  · next hKind =>
      obtain ⟨⟨name, _⟩, hFound, hLast⟩ := bind_eq_ok_iff.mp hText
      cases hLast
      exact .dynamic name _ hKind hFound hParsed
  · next hKind =>
      obtain ⟨ref, hFound, hLast⟩ := bind_eq_ok_iff.mp hText
      cases hLast
      exact .reference ref hKind hFound hParsed

section QuickSignature

variable (hInstr : s.IsInvocation)

include hInstr

/-- Where the constant cannot be read, the instruction tells nothing. -/
theorem quickSignature_of_error {e : ClassFileError} (h : s.descriptor = .error e) :
    s.quickSignature = .unknown := by
  simp only [quickSignature, ClassFile.quickSignature, show _ = _ from hInstr]
  cases hKind : s.kind with
  | dynamic =>
      rw [invokeDynamic_of_error hKind h]
      rfl
  | _ =>
      rw [methodRef_of_error (by simp [hKind]) h]
      rfl

/-- A dynamic call tells its descriptor and no method. -/
theorem quickSignature_of_dynamic {name text : String} (hKind : s.kind = .dynamic)
    (hFound : s.owner.constants.invokeDynamic s.index = .ok (name, text)) :
    s.quickSignature = dynamicSignature text := by
  simp only [quickSignature, ClassFile.quickSignature, show _ = _ from hInstr, hKind, hFound]
  rfl

/-- Only a static call tells its class. For the other kinds the class that
is named need not be the one that is called. -/
theorem quickSignature_of_reference {ref : MethodRef} (hKind : s.kind ≠ .dynamic)
    (hFound : s.owner.constants.methodRef s.index = .ok ref) :
    s.quickSignature =
      ⟨if s.kind = .static then some ref.owner else none, some ref.name, some ref.descriptor⟩ := by
  simp only [quickSignature, ClassFile.quickSignature, show _ = _ from hInstr]
  cases hCase : s.kind with
  | dynamic => exact False.elim (hKind hCase)
  | _ =>
      rw [hFound]
      rfl

end QuickSignature

end CallSite

namespace Resolver

variable {r : Resolver} {s : CallSite} {i : Invocation} {ref : MethodRef} {d : MethodDescriptor}

/-- Where no call is left out, each signature is called once. -/
theorem value_call_of_unskipped (hSkip : r.options.skipIncompleteCalls = false)
    (signature : MethodSignature) (nullness : Nullness) (dependent : Bool) (operands : Operands) :
    ∃ c, (r.call i signature nullness dependent operands).value = [c] ∧
      c.targetSignature = signature := by
  rw [call, if_neg (by simp [hSkip])]
  exact ⟨_, rfl, signature_target signature⟩

/-- Whatever class is selected, the calls of a reference have its name and
descriptor. -/
theorem signature_of_mem_referenceCalls {kind : InvokeKind} {c : Call}
    (h : c ∈ (r.referenceCalls i kind ref d).value) :
    ∃ owner, c.targetSignature = .of owner ref.name ref.descriptor := by
  rw [referenceCalls, Traced.value_bind, Traced.value_gather] at h
  obtain ⟨t, -, hCall⟩ := List.mem_flatMap.mp h
  obtain ⟨made, hMade, -, hSignature⟩ := value_call (r := r) (i := i)
    (s := .of t.owner ref.name ref.descriptor) rfl t.nullness _ _
  rw [hMade] at hCall
  obtain rfl := List.mem_singleton.mp hCall
  exact ⟨t.owner, hSignature⟩

/-- A static call has one target. -/
theorem value_referenceCalls_static (r : Resolver) (i : Invocation) (ref : MethodRef)
    (d : MethodDescriptor) : ∃ c, (r.referenceCalls i .static ref d).value = [c] ∧
      c.targetSignature = .of (r.repository.selectStatic ref).value ref.name ref.descriptor := by
  obtain ⟨c, hCall, -, hSignature⟩ := value_call (r := r) (i := i)
    (s := .of (r.repository.selectStatic ref).value ref.name ref.descriptor) rfl .never false
    (i.facts.operands i.location.address d false)
  refine ⟨c, ?_, hSignature⟩
  rw [← hCall, referenceCalls, Traced.value_bind, Traced.value_gather]
  exact List.flatMap_singleton _ _

/-- An invocation without a readable constant is malformed, and nothing is
looked up for it. -/
theorem invocationCalls_of_error (hOwner : i.owner = s.owner) {e : ClassFileError}
    (h : s.descriptor = .error e) :
    r.invocationCalls i s.kind s.index = r.malformedCall i e := by
  by_cases hKind : s.kind = .dynamic
  · have hConstant := CallSite.invokeDynamic_of_error hKind h
    rw [hKind, invocationCalls, hOwner, hConstant]
    rfl
  · apply invocationCalls_eq_malformedCall hKind
    rw [hOwner, CallSite.methodRef_of_error hKind h]
    rfl

theorem invocationCalls_eq_dynamicCalls {kind : InvokeKind} {index : PoolIndex}
    {name text : String} (hKind : kind = .dynamic)
    (hFound : i.owner.constants.invokeDynamic index = .ok (name, text))
    (hParsed : MethodDescriptor.ofString text = .ok d) :
    r.invocationCalls i kind index = r.dynamicCalls i text d := by
  rw [hKind]
  simp [invocationCalls, hFound, hParsed, bind, Except.bind, pure, Except.pure]

/-- It makes one call, of which nothing is known. -/
theorem made_of_error (hSkip : r.options.skipIncompleteCalls = false) {e : ClassFileError}
    (h : s.descriptor = .error e) : ∃ c, r.made s = [c] ∧ c.targetSignature = .unknown := by
  rw [made, invocationCalls_of_error rfl h]
  exact value_call_of_unskipped hSkip .unknown .maybe false {}

/-- A dynamic invocation makes one call, of which the descriptor is
known. -/
theorem made_of_dynamic (hSkip : r.options.skipIncompleteCalls = false) {name text : String}
    (hKind : s.kind = .dynamic)
    (hFound : s.owner.constants.invokeDynamic s.index = .ok (name, text))
    (hParsed : MethodDescriptor.ofString text = .ok d) :
    ∃ c, r.made s = [c] ∧ c.targetSignature = dynamicSignature text := by
  obtain ⟨i, hCalls⟩ : ∃ i, r.made s = (r.dynamicCalls i text d).value :=
    ⟨_, congrArg Traced.value (invocationCalls_eq_dynamicCalls hKind hFound hParsed)⟩
  rw [hCalls]
  exact value_call_of_unskipped hSkip _ _ _ _

/-- Any other invocation makes the calls of its reference. -/
theorem made_of_reference (hKind : s.kind ≠ .dynamic)
    (hFound : s.owner.constants.methodRef s.index = .ok ref)
    (hParsed : ref.parsedDescriptor = .ok d) :
    ∃ i, r.made s = (r.referenceCalls i s.kind ref d).value :=
  ⟨_, congrArg Traced.value (invocationCalls_eq hKind hFound hParsed)⟩

/-- What the instruction of an invocation tells agrees with the calls that
are made of it. -/
structure AgreesWithInstr (r : Resolver) (s : CallSite) : Prop where
  unreadable : ∀ e, s.descriptor = .error e → s.quickSignature = .unknown ∧
    ∃ c, r.made s = [c] ∧ c.targetSignature = .unknown
  signature : ∀ d, s.parsedDescriptor = .ok d → r.made s ≠ [] ∧ ∀ c ∈ r.made s,
    c.targetSignature.name = s.quickSignature.name ∧
      c.targetSignature.descriptor = s.quickSignature.descriptor
  static : ∀ d, s.parsedDescriptor = .ok d → s.kind = .static →
    ∃ c named owner, r.made s = [c] ∧ s.quickSignature.owner = some named ∧
      c.targetSignature.owner = some owner ∧
      Relation.ReflTransGen (fun name parent => r.repository.superclass? name = some parent)
        named owner
  dynamic : ∀ d, s.parsedDescriptor = .ok d → s.kind = .dynamic →
    ∃ c, r.made s = [c] ∧ c.targetSignature = s.quickSignature

/-- An invocation agrees with its instruction, whichever of the three kinds
its constant is of. -/
theorem agreesWithInstr (hInstr : s.IsInvocation)
    (hSkip : r.options.skipIncompleteCalls = false) (hMade : r.made s ≠ []) :
    r.AgreesWithInstr s where
  unreadable e h := ⟨CallSite.quickSignature_of_error hInstr h, made_of_error hSkip h⟩
  signature d h := by
    refine ⟨hMade, ?_⟩
    intro c hc
    cases CallSite.reads_of_parsedDescriptor h with
    | dynamic name text hKind hFound hParsed =>
        obtain ⟨call, hCall, hSignature⟩ := made_of_dynamic hSkip hKind hFound hParsed
        rw [hCall] at hc
        obtain rfl := List.mem_singleton.mp hc
        rw [hSignature, CallSite.quickSignature_of_dynamic hInstr hKind hFound]
        exact ⟨rfl, rfl⟩
    | reference ref hKind hFound hParsed =>
        obtain ⟨i, hCalls⟩ := made_of_reference (r := r) hKind hFound hParsed
        rw [hCalls] at hc
        -- However targets are selected, only their classes differ.
        obtain ⟨owner, hSignature⟩ := signature_of_mem_referenceCalls hc
        rw [hSignature, CallSite.quickSignature_of_reference hInstr hKind hFound]
        exact ⟨rfl, rfl⟩
  static d h hStatic := by
    cases CallSite.reads_of_parsedDescriptor h with
    | dynamic name text hKind => cases hStatic.symm.trans hKind
    | reference ref hKind hFound hParsed =>
        obtain ⟨i, hCalls⟩ := made_of_reference (r := r) hKind hFound hParsed
        obtain ⟨c, hCall, hSignature⟩ := value_referenceCalls_static r i ref d
        refine ⟨c, ref.owner, _, ?_, ?_, ?_, r.repository.reaches_selectStatic ref⟩
        · rw [hCalls, hStatic, hCall]
        · rw [CallSite.quickSignature_of_reference hInstr hKind hFound, if_pos hStatic]
        · rw [hSignature]
          rfl
  dynamic d h hDynamic := by
    cases CallSite.reads_of_parsedDescriptor h with
    | dynamic name text hKind hFound hParsed =>
        rw [CallSite.quickSignature_of_dynamic hInstr hKind hFound]
        exact made_of_dynamic hSkip hKind hFound hParsed
    | reference ref hKind => exact False.elim (hKind hDynamic)

theorem isInvocation_of_mem_sitesOfMethod {asked : History} {owner : ClassFile} {m : MethodInfo}
    (h : s ∈ r.sitesOfMethod asked owner m) : s.IsInvocation := by
  obtain ⟨code, -, p, -, hSite⟩ := at?_of_mem_sitesOfMethod h
  obtain ⟨⟨kind, index⟩, hInstr, rfl⟩ := Option.map_eq_some_iff.mp hSite
  exact hInstr

/-- All sites of a visit are invocations. -/
theorem isInvocation_of_mem_sitesOf {asked : History} {v : Visit} (h : s ∈ r.sitesOf asked v) :
    s.IsInvocation := by
  cases v with
  | ofMethod owner m => exact isInvocation_of_mem_sitesOfMethod h
  | ofClass c =>
      obtain ⟨x, -, hSite⟩ := List.mem_flatMap.mp h
      exact isInvocation_of_mem_sitesOfMethod hSite
  | ofRepository =>
      obtain ⟨c, -, hClass⟩ := List.mem_flatMap.mp h
      obtain ⟨x, -, hSite⟩ := List.mem_flatMap.mp hClass
      exact isInvocation_of_mem_sitesOfMethod hSite

/-- Whatever is visited, and whatever was visited before, the calls that
visitors see and that are added to the graph agree with what their
instructions tell, unless calls are left out. -/
theorem calls_agree_with_instrs {r : Resolver} {work : Resolution}
    (hSkip : r.options.skipIncompleteCalls = false) (hVisited : r.Visited work.state) (v : Visit) :
    (∀ visitor, shownTo visitor (r.visit work v).events =
      if visitor < r.visitors then (r.sitesOf work.state.asked v).flatMap r.made else []) ∧
    (r.visit work v).value.graph =
      work.graph.addAll (((r.sitesOf work.state.asked v).flatMap r.made).map r.kept) ∧
    ∀ s ∈ r.sitesOf work.state.asked v, s.IsInvocation ∧ r.AgreesWithInstr s ∧
      ∀ c ∈ r.made s, c.caller = s.location ∧ c.instr = s.placed.instr ∧
        (r.kept c).targetSignature = c.targetSignature := by
  have hAdds := visit_visited work v hVisited
  have hLists := callsOf_lists (r := r) work.state.asked v
  refine ⟨?_, ?_, ?_⟩
  · intro visitor
    rw [hAdds.events, ← Traced.shownTo_callEvents, hLists.events, shownTo_sites]
  · rw [hAdds.graph, hLists.value]
  · intro s hs
    have hInstr := isInvocation_of_mem_sitesOf hs
    have hMade : r.made s ≠ [] := by
      rw [ne_eq, hLists.skipped s hs, hSkip]
      simp
    refine ⟨hInstr, agreesWithInstr hInstr hSkip hMade, ?_⟩
    intro c hc
    obtain ⟨hCaller, hSame⟩ := hLists.located s hs c hc
    exact ⟨hCaller, hSame, targetSignature_kept r c⟩

end Resolver

/-- Nothing is left out, not even what is not known of a call. -/
def completeResolver : Resolver where
  repository := {}
  visitors := 1

def completeWork : Resolution := ⟨completeResolver.initialState, .empty⟩

/-- The visitor sees one call for each instruction, and of each what the
instruction tells. -/
theorem mixedMethod_agrees :
    completeResolver.options.skipIncompleteCalls = false ∧
      completeResolver.Visited completeWork.state ∧
      ∃ static dynamic malformed,
        shownTo 0 (completeResolver.visit completeWork (.ofMethod mixedClass mixedMethod)).events =
          [static, dynamic, malformed] ∧
        static.targetSignature.name = some "g" ∧
        static.targetSignature.descriptor = some "(I)V" ∧
        dynamic.targetSignature = dynamicSignature "(I)V" ∧
        malformed.targetSignature = .unknown := by
  have hVisited : completeResolver.Visited completeWork.state := .initial
  obtain ⟨hShown, -, hSites⟩ := Resolver.calls_agree_with_instrs rfl hVisited
    (.ofMethod mixedClass mixedMethod)
  have hMixed : completeResolver.sitesOf completeWork.state.asked
      (.ofMethod mixedClass mixedMethod) =
      [staticSite, dynamicSite, malformedSite] := rfl
  rw [hMixed] at hShown hSites
  obtain ⟨-, hStatic, -⟩ := hSites staticSite (by simp)
  obtain ⟨-, hDynamic, -⟩ := hSites dynamicSite (by simp)
  obtain ⟨-, hMalformed, -⟩ := hSites malformedSite (by simp)
  have hStaticParsed : staticSite.parsedDescriptor = .ok ⟨[.int], .void⟩ := by cbv
  have hDynamicParsed : dynamicSite.parsedDescriptor = .ok ⟨[.int], .void⟩ := by cbv
  have hError : malformedSite.descriptor = .error (.constantNotFound 9) := by cbv
  have hStaticQuick : staticSite.quickSignature = .of "t/B" "g" "(I)V" := by cbv
  have hDynamicQuick : dynamicSite.quickSignature = dynamicSignature "(I)V" := by cbv
  obtain ⟨static, -, -, hStaticMade, -⟩ := hStatic.static _ hStaticParsed rfl
  obtain ⟨dynamic, hDynamicMade, hDynamicSignature⟩ := hDynamic.dynamic _ hDynamicParsed rfl
  obtain ⟨-, malformed, hMalformedMade, hUnknown⟩ := hMalformed.unreadable _ hError
  obtain ⟨hName, hDescriptor⟩ :=
    (hStatic.signature _ hStaticParsed).2 static (by rw [hStaticMade]; simp)
  rw [hStaticQuick] at hName hDescriptor
  rw [hDynamicQuick] at hDynamicSignature
  refine ⟨rfl, hVisited, static, dynamic, malformed, ?_, hName, hDescriptor, hDynamicSignature,
    hUnknown⟩
  rw [hShown, if_pos (by decide)]
  simp [hStaticMade, hDynamicMade, hMalformedMade]

end JvmCalls
