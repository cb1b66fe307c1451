import JvmCalls.Proofs.CallGraph.Representation
import JvmCalls.Proofs.Hierarchy.History
import JvmCalls.Proofs.Resolver.Accounting
import JvmCalls.Proofs.Resolver.Agreement

/-! Which calls are concrete. However the class of a target was found, the
target is looked up by its signature, so that a call carries a method
just where the repository declares one. The graphs of calls only pass this on. -/
namespace JvmCalls

/-- This is the first method of the name and descriptor in the class
file. -/
def ClassFile.DeclaresFirst (file : ClassFile) (name descriptor : String) (m : MethodInfo) : Prop :=
  m.name = name ∧ m.descriptor = descriptor ∧
    ∃ before after, file.methods = before ++ m :: after ∧
      ∀ other ∈ before, other.name = name → other.descriptor ≠ descriptor

/-- The method that is found is the first that fits, as a file may have
several. -/
theorem ClassFile.findMethod?_eq_some_iff {file : ClassFile} {name descriptor : String}
    {m : MethodInfo} :
    file.findMethod? name descriptor = some m ↔ file.DeclaresFirst name descriptor m := by
  simp [findMethod?, List.find?_eq_some_iff_append, DeclaresFirst, and_assoc, imp_iff_not_or]

/-- The class of the signature is defined and declares a method of its name
and descriptor. -/
def Repository.Declares (repository : Repository) (s : MethodSignature) : Prop :=
  ∃ owner name descriptor file, s = .of owner name descriptor ∧
    repository.definition? owner = some file ∧
      ∃ m ∈ file.methods, m.name = name ∧ m.descriptor = descriptor

/-- A method is declared just if the look-up finds one. -/
theorem Repository.declares_iff {repository : Repository} {s : MethodSignature} :
    repository.Declares s ↔ ∃ owner name descriptor, s = .of owner name descriptor ∧
      (repository.findMethod? owner name descriptor).isSome = true := by
  simp [Declares, findMethod?, ClassFile.findMethod?, Option.isSome_bind, Option.any_eq_true]

/-- What the repository knows of the target is what it declares. A symbolic
target is one that it does not declare. -/
inductive CallTarget.ResolvedIn (repository : Repository) : CallTarget → Prop where
  | declared {owner name descriptor : String} {file : ClassFile} {m : MethodInfo}
      (hDefined : repository.definition? owner = some file)
      (hMethod : file.findMethod? name descriptor = some m) :
      ResolvedIn repository (.concrete (.of owner name descriptor) file m)
  | undeclared {s : MethodSignature} (hNone : ¬ repository.Declares s) :
      ResolvedIn repository (.symbolic s)

namespace CallTarget

variable {repository : Repository} {t : CallTarget}

/-- A resolved target is concrete just if the repository declares it. -/
theorem ResolvedIn.isConcrete_iff (h : t.ResolvedIn repository) :
    t.isConcrete = true ↔ repository.Declares t.signature := by
  cases h with
  | @declared owner name descriptor file m hDefined hMethod =>
      refine iff_of_true rfl (Repository.declares_iff.mpr ⟨owner, name, descriptor, rfl, ?_⟩)
      rw [Repository.findMethod?, hDefined, Option.bind_some, hMethod, Option.isSome_some]
  | undeclared hNone => exact iff_of_false Bool.false_ne_true hNone

end CallTarget

namespace Resolver

variable {r : Resolver} {c : Call}

/-- Every target is looked up, so that it is resolved. -/
theorem resolved_target (s : MethodSignature) : (r.target s).value.ResolvedIn r.repository := by
  unfold target
  split
  · next file name descriptor hOwner hName hDescriptor =>
      obtain ⟨owner, hKnown, hDefined⟩ := Option.bind_eq_some_iff.mp hOwner
      obtain rfl : s = .of owner name descriptor := by
        rw [MethodSignature.of, ← hKnown, ← hName, ← hDescriptor]
      split
      · next m hMethod => exact .declared hDefined hMethod
      · next hMethod =>
          apply CallTarget.ResolvedIn.undeclared
          rw [Repository.declares_iff]
          intro hDeclared
          obtain ⟨owner', name', descriptor', hSame, hFound⟩ := hDeclared
          cases hSame
          rw [Repository.findMethod?, hDefined, Option.bind_some, hMethod] at hFound
          cases hFound
  · next hUnknown =>
      apply CallTarget.ResolvedIn.undeclared
      intro hDeclared
      obtain ⟨owner, name, descriptor, file, rfl, hDefined, -⟩ := hDeclared
      exact hUnknown file name descriptor hDefined rfl rfl

theorem resolved_of_mem_call {i : Invocation} {s : MethodSignature} {nullness : Nullness}
    {dependent : Bool} {operands : Operands}
    (h : c ∈ (r.call i s nullness dependent operands).value) :
    c.target.ResolvedIn r.repository := by
  unfold call at h
  split at h
  · cases h
  · obtain rfl := List.mem_singleton.mp h
    exact resolved_target s

/-- Whatever is visited, the targets of its calls are resolved. Every call
was made for some signature. -/
theorem resolved_of_mem_callsOf {asked : History} {v : Visit}
    (h : c ∈ (r.callsOf asked v).value) :
    c.target.ResolvedIn r.repository := by
  rw [(callsOf_lists asked v).value] at h
  obtain ⟨made, hMade, rfl⟩ := List.mem_map.mp h
  obtain ⟨site, -, hSite⟩ := List.mem_flatMap.mp hMade
  obtain ⟨s, nullness, dependent, operands, hCall⟩ := mem_call_of_mem_invocationCalls hSite
  have hTarget : (r.kept made).target = made.target :=
    congrArg (fun c => c.target) (clearValues_kept (r := r) made)
  rw [hTarget]
  exact resolved_of_mem_call hCall

end Resolver

/-- The graphs that resolving on a repository yields: what visits add to
such a graph, the graphs of the whole repository, of the classes whose name
passes a test and of those that match a pattern of whichever language, and
what merging and filtering make of them. -/
inductive Repository.Yields (repository : Repository) : CallGraph → Prop where
  | empty : Yields repository .empty
  | visit {g : CallGraph} {r : Resolver} {s : ResolverState} (prior : Yields repository g)
      (hOn : r.repository = repository) (hVisited : r.Visited s) (v : Visit) :
      Yields repository (r.visit ⟨s, g⟩ v).value.graph
  | all {r : Resolver} (hOn : r.repository = repository) :
      Yields repository (CallGraph.ofRepository r).value
  | named {r : Resolver} (hOn : r.repository = repository) (p : String → Bool) :
      Yields repository (CallGraph.ofNamed r p).value
  | matching {r : Resolver} {compile : String → Option (String → Bool)} {text : String}
      {g : CallGraph} (hOn : r.repository = repository)
      (hPattern : (CallGraph.ofMatching? compile r text).value = some g) : Yields repository g
  | merge {g other : CallGraph} (prior : Yields repository g) (added : Yields repository other) :
      Yields repository (g.merge other)
  | filter {g : CallGraph} (prior : Yields repository g) (p : MethodSignature → Bool) :
      Yields repository (g.filter p)

namespace CallGraph

variable {r : Resolver} {c : Call}

/-- The calls of a graph are those of its classes, and these are
resolved. -/
theorem resolved_of_mem_ofClasses {classes : List ClassFile}
    (h : c ∈ (ofClasses r classes).value.calls) : c.target.ResolvedIn r.repository := by
  rw [calls_ofClasses] at h
  obtain ⟨file, -, hCall⟩ := List.mem_flatMap.mp h
  exact Resolver.resolved_of_mem_callsOf (v := .ofClass file) hCall

/-- A text that is a pattern selects the classes that pass its test. -/
theorem ofMatching?_eq_some {compile : String → Option (String → Bool)} {text : String}
    {g : CallGraph} (h : (ofMatching? compile r text).value = some g) :
    ∃ p, compile text = some p ∧ (ofNamed r p).value = g := by
  unfold ofMatching? at h
  split at h
  · cases h
  · next p hPattern => exact ⟨p, hPattern, Option.some.inj h⟩

end CallGraph

/-- All calls of such a graph are resolved, by one case for each way to make
it. Adding, merging and filtering make no call up. -/
theorem Repository.Yields.resolved {repository : Repository} {g : CallGraph}
    (h : repository.Yields g) : ∀ c ∈ g.calls, c.target.ResolvedIn repository := by
  induction h with
  | empty =>
      intro c hc
      cases hc
  | @visit g r s prior hOn hVisited v ih =>
      intro c hc
      rw [(Resolver.visit_visited ⟨s, g⟩ v hVisited).graph, CallGraph.calls_addAll] at hc
      cases List.mem_append.mp hc with
      | inl hOld => exact ih c hOld
      | inr hNew => exact hOn ▸ Resolver.resolved_of_mem_callsOf hNew
  | all hOn =>
      intro c hc
      exact hOn ▸ CallGraph.resolved_of_mem_ofClasses hc
  | named hOn p =>
      intro c hc
      exact hOn ▸ CallGraph.resolved_of_mem_ofClasses hc
  | matching hOn hPattern =>
      intro c hc
      obtain ⟨p, -, rfl⟩ := CallGraph.ofMatching?_eq_some hPattern
      exact hOn ▸ CallGraph.resolved_of_mem_ofClasses hc
  | merge prior added ih ihAdded =>
      intro c hc
      rw [CallGraph.calls_merge] at hc
      cases List.mem_append.mp hc with
      | inl hOld => exact ih c hOld
      | inr hNew => exact ihAdded c hNew
  | filter prior p ih =>
      intro c hc
      exact ih c ((CallGraph.calls_restrict_sublist _ _).subset hc)

/-- The class file is the first one of that name, among all that were ever
registered. -/
theorem Repository.firstNamed_of_definition? {history : List RepositoryOp}
    {repository : Repository} (hRun : performAll {} history = .ok repository) {name : String}
    {file : ClassFile} (hDefined : repository.definition? name = some file) :
    file.name = name ∧ ∃ library,
      firstNamed (history.flatMap RepositoryOp.files) name = some (file, library) := by
  rw [definition?_eq_registered?, (traces_of_performAll hRun).registered] at hDefined
  obtain ⟨x, hFirst, rfl⟩ := Option.map_eq_some_iff.mp hDefined
  exact ⟨name_of_firstNamed hFirst, x.2, hFirst⟩

/-- In all graphs that a repository yields, a call is concrete just if the
repository declares its target, whether or not its values were cleared. It
then carries the class file that was registered by that name and the first
method in it that fits. -/
theorem concrete_iff_declared {history : List RepositoryOp} {repository : Repository}
    (hRun : Repository.performAll {} history = .ok repository) {g : CallGraph}
    (hYields : repository.Yields g) {c : Call} (hMem : c ∈ g.calls) :
    ∀ call ∈ [c, c.clearValues],
      (call.isConcrete = true ↔ repository.Declares call.targetSignature) ∧
      ∀ s file m, call.target = .concrete s file m → ∃ owner name descriptor,
        s = .of owner name descriptor ∧
        repository.definition? owner = some file ∧
        file.name = owner ∧
        (∃ library, firstNamed (history.flatMap RepositoryOp.files) owner = some (file, library)) ∧
        file.DeclaresFirst name descriptor m := by
  intro call hCall
  have hTarget : call.target = c.target := by
    rcases List.mem_pair.mp hCall with rfl | rfl
    · rfl
    · rfl
  have hResolved := hYields.resolved c hMem
  rw [Call.isConcrete, Call.targetSignature, hTarget]
  refine ⟨hResolved.isConcrete_iff, ?_⟩
  intro s file m hConcrete
  rw [hConcrete] at hResolved
  cases hResolved with
  | @declared owner name descriptor file m hDefined hMethod =>
      obtain ⟨hName, hFirst⟩ := Repository.firstNamed_of_definition? hRun hDefined
      exact ⟨owner, name, descriptor, rfl, hDefined, hName, hFirst,
        ClassFile.findMethod?_eq_some_iff.mp hMethod⟩

/-- A class that calls the method `f` of another class. -/
def staticCaller : ClassFile where
  flags := default
  name := "t/A"
  superclass := none
  interfaces := []
  constants := { entries := #[some (.utf8 "t/B"), some (.classRef 1), some (.utf8 "f"),
    some (.utf8 "()V"), some (.nameAndType 3 4), some (.methodRef 2 5)] }
  methods := [⟨default, "g", "()V",
    some ⟨0, 0, [⟨⟨0⟩, .invokeStatic 6⟩, ⟨⟨3⟩, .ret .void⟩], [], []⟩⟩]

/-- A class with two methods `f` that differ in nothing but their code. -/
def ambiguousCallee : ClassFile where
  flags := default
  name := "t/B"
  superclass := none
  interfaces := []
  constants := {}
  methods := [⟨default, "f", "(I)V", none⟩, ⟨default, "f", "()V", none⟩,
    ⟨default, "f", "()V", some ⟨0, 0, [⟨⟨0⟩, .ret .void⟩], [], []⟩⟩]

/-- The class that is called is defined after the repository was closed, and
is registered once more under its name. -/
def lateCallee : List RepositoryOp :=
  [.register staticCaller false, .close, .register ambiguousCallee true,
    .register (CallGraph.malformedCaller "t/B") false]

/-- The call carries the first method of the class file that counts. -/
theorem lateCallee_concrete :
    ∃ repository c, Repository.performAll {} lateCallee = .ok repository ∧
      repository.Yields ((CallGraph.ofRepository { repository }).value.merge .empty) ∧
      c ∈ ((CallGraph.ofRepository { repository }).value.merge .empty).calls ∧
      c.isConcrete = true ∧ repository.Declares c.targetSignature ∧
      c.target = .concrete (.of "t/B" "f" "()V") ambiguousCallee ⟨default, "f", "()V", none⟩ := by
  have hCalls : (Repository.performAll {} lateCallee).toOption.map (fun repository =>
      (CallGraph.ofRepository { repository }).value.calls.map fun c =>
        (c.isConcrete, c.targetSignature)) = some [(true, .of "t/B" "f" "()V")] := by
    simp only [CallGraph.ofRepository, CallGraph.calls_ofClasses]
    decide +kernel
  obtain ⟨repository, hRun, -⟩ := Repository.performAll_traces lateCallee
  rw [hRun] at hCalls
  obtain ⟨c, hSingle, hCall⟩ := List.map_eq_singleton_iff.mp (Option.some.inj hCalls)
  obtain ⟨hConcrete, hSignature⟩ := Prod.mk.inj hCall
  have hYields : repository.Yields ((CallGraph.ofRepository { repository }).value.merge .empty) :=
    .merge (.all rfl) .empty
  have hMem : c ∈ ((CallGraph.ofRepository { repository }).value.merge .empty).calls := by
    rw [CallGraph.calls_merge, hSingle]
    exact List.mem_cons_self
  obtain ⟨hDeclared, hCarried⟩ :=
    concrete_iff_declared hRun hYields hMem c List.mem_cons_self
  refine ⟨repository, c, hRun, hYields, hMem, hConcrete, hDeclared.mp hConcrete, ?_⟩
  cases hTarget : c.target with
  | symbolic s =>
      rw [Call.isConcrete, hTarget] at hConcrete
      cases hConcrete
  | concrete s file m =>
      obtain ⟨owner, name, descriptor, rfl, -, -, ⟨library, hFirst⟩, hMethod⟩ :=
        hCarried s file m hTarget
      rw [Call.targetSignature, hTarget] at hSignature
      cases hSignature
      have hFile : firstNamed (lateCallee.flatMap RepositoryOp.files) "t/B" =
          some (ambiguousCallee, true) := rfl
      cases hFile.symm.trans hFirst
      have hDeclaration : ambiguousCallee.findMethod? "f" "()V" =
          some ⟨default, "f", "()V", none⟩ := rfl
      cases hDeclaration.symm.trans (ClassFile.findMethod?_eq_some_iff.mpr hMethod)
      rfl

end JvmCalls
