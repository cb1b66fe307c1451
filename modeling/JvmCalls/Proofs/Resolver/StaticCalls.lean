import JvmCalls.Proofs.Resolver.QuickSignature
import JvmCalls.Proofs.Resolver.Targets
import JvmCalls.Proofs.Selection.Invocation

/-! Which method a static call runs. The class that is referred to and its
superclasses are asked in turn, up to the first that is not defined or
repeats, and the first that declares the method is taken, whether or not the
method is abstract there. Where none does, the class that is referred to
stands for itself, and the call stays symbolic. -/
namespace JvmCalls

namespace Repository

/-- The class that is referred to, or a superclass on the way up from it,
declares the method. -/
def DeclaredAlong (r : Repository) (ref : MethodRef) : Prop :=
  ∃ path, r.Climbs ref.owner path ∧ ∃ a ∈ path, r.Declares (.of a ref.name ref.descriptor)

/-- The first class that declares the method on the way up, abstract or
not. -/
def FirstDeclaring (r : Repository) (ref : MethodRef) (owner : String) : Prop :=
  ∃ before, r.Climbs ref.owner (before ++ [owner]) ∧
    r.Declares (.of owner ref.name ref.descriptor) ∧
    ∀ a ∈ before, ¬ r.Declares (.of a ref.name ref.descriptor)

variable {r : Repository} {ref : MethodRef} {owner : String}

/-- The test of a class agrees with what the repository declares. -/
theorem declares_eq_true_iff {name descriptor : String} :
    r.declares name descriptor owner = true ↔ r.Declares (.of owner name descriptor) := by
  simp [declares, declares_iff, MethodSignature.of]

theorem declares_eq_false_iff {name descriptor : String} :
    r.declares name descriptor owner = false ↔ ¬ r.Declares (.of owner name descriptor) := by
  rw [← declares_eq_true_iff, Bool.not_eq_true]

/-- The way up ends, as it meets no class of the repository twice. -/
theorem Climbs.length_le {name : String} {path : List String} (h : r.Climbs name path) :
    path.length ≤ r.nodes.length := by
  have hKnown : path ⊆ r.hierarchy.names := fun a ha => mem_names_of_isDefined (h.defined a ha)
  have hLength := (h.walk.nodup.subperm hKnown).length_le
  rwa [Hierarchy.names, List.length_map] at hLength

/-- The search finds the first class that declares the method on the way
up. -/
theorem find?_declares_eq_some_iff :
    (r.definedLineage ref.owner).find? (r.declares ref.name ref.descriptor) = some owner ↔
      r.FirstDeclaring ref owner := by
  simp only [find?_definedLineage_eq_some_iff, declares_eq_true_iff, declares_eq_false_iff,
    FirstDeclaring]

/-- The search finds nothing just if no class on the way declares the
method. -/
theorem find?_declares_eq_none_iff :
    (r.definedLineage ref.owner).find? (r.declares ref.name ref.descriptor) = none ↔
      ¬ r.DeclaredAlong ref := by
  simp only [find?_definedLineage_eq_none_iff, declares_eq_false_iff, DeclaredAlong, not_exists,
    not_and]

/-- There is nothing on the way up from a class that is not defined. -/
theorem not_declaredAlong (hNone : r.isDefined ref.owner = false) : ¬ r.DeclaredAlong ref := by
  rintro ⟨path, hClimbs, -⟩
  exact Bool.false_ne_true (hNone.symm.trans (hClimbs.defined _ hClimbs.walk.mem_start))

/-- What is selected is what the search finds, and the class that is
referred to if it finds nothing. -/
theorem value_selectStatic (r : Repository) (ref : MethodRef) :
    (r.selectStatic ref).value =
      ((r.definedLineage ref.owner).find? (r.declares ref.name ref.descriptor)).getD ref.owner := by
  unfold selectStatic
  split
  · rfl
  · next hNone =>
      rw [find?_declares_eq_none_iff.mpr (not_declaredAlong (Bool.eq_false_iff.mpr hNone))]
      rfl

/-- The two ways in which a class can be selected. They exclude each
other. -/
theorem selectStatic_eq_iff : (r.selectStatic ref).value = owner ↔
    r.FirstDeclaring ref owner ∨ owner = ref.owner ∧ ¬ r.DeclaredAlong ref := by
  rw [value_selectStatic, ← find?_declares_eq_some_iff, ← find?_declares_eq_none_iff]
  cases (r.definedLineage ref.owner).find? (r.declares ref.name ref.descriptor) with
  | none => simp [eq_comm]
  | some found => simp

/-- The class that is selected declares the method just if some class on the
way up does. -/
theorem declares_selectStatic_iff :
    r.Declares (.of (r.selectStatic ref).value ref.name ref.descriptor) ↔ r.DeclaredAlong ref := by
  rcases selectStatic_eq_iff.mp rfl with ⟨before, hClimbs, hDeclares, -⟩ | ⟨hSelf, hNone⟩
  · exact iff_of_true hDeclares ⟨_, hClimbs, _, List.mem_concat_self, hDeclares⟩
  · rw [hSelf]
    -- The class that stands for itself is on its own way up if it is defined at all.
    refine iff_of_false ?_ hNone
    intro hDeclares
    have hDefined : r.isDefined ref.owner = true := by
      obtain ⟨owner, name, descriptor, file, hSame, hFile, -⟩ := hDeclares
      cases hSame
      rw [isDefined, hFile, Option.isSome_some]
    have hAlone : r.Climbs ref.owner [ref.owner] :=
      ⟨.single ref.owner, by simpa using hDefined⟩
    exact hNone ⟨_, hAlone, _, List.mem_singleton_self _, hDeclares⟩

/-- Only the class that is referred to is counted as missing, and only once.
A gap further up is not counted. -/
theorem tally_selectStatic (r : Repository) (ref : MethodRef) :
    Counter.missingClass.tally (r.selectStatic ref).events =
      if r.isDefined ref.owner then 0 else 1 := by
  unfold selectStatic
  split
  · rfl
  · rfl

end Repository

namespace Resolver

variable {r : Resolver} {s : CallSite} {ref : MethodRef} {d : MethodDescriptor}

/-- A static invocation that can be read makes one call. -/
theorem made_of_static (hKind : s.kind = .static)
    (hFound : s.owner.constants.methodRef s.index = .ok ref)
    (hParsed : ref.parsedDescriptor = .ok d) :
    ∃ c, r.made s = [c] ∧
      c.targetSignature = .of (r.repository.selectStatic ref).value ref.name ref.descriptor := by
  obtain ⟨i, hCalls⟩ := made_of_reference (r := r) (by simp [hKind]) hFound hParsed
  rw [hCalls, hKind]
  exact value_referenceCalls_static r i ref d

/-- A call is concrete just if the repository declares its target. -/
theorem isConcrete_iff_of_mem_made {c : Call} (h : c ∈ r.made s) :
    c.isConcrete = true ↔ r.repository.Declares c.targetSignature := by
  obtain ⟨signature, nullness, dependent, operands, hCall⟩ := mem_call_of_mem_invocationCalls h
  exact (resolved_of_mem_call hCall).isConcrete_iff

/-- Clearing values does not change whether a call is concrete. -/
theorem isConcrete_kept (r : Resolver) (c : Call) : (r.kept c).isConcrete = c.isConcrete := by
  unfold kept
  split
  · rfl
  · rfl

/-- A static call runs the first class that declares the method, abstract or
not, among the class that it refers to and its superclasses up to the first
that is not defined or repeats. There are no more of them than classes in
the repository. Where none declares the method, the class that it refers to
is selected, and it is counted as missing just if it is not defined.
Whatever is visited, and whatever was visited before, an invocation has one
such call, which is concrete just if some class on the way declares the
method. -/
theorem static_calls_nearest (r : Resolver) (ref : MethodRef) :
    (∀ owner, (r.repository.selectStatic ref).value = owner ↔
      r.repository.FirstDeclaring ref owner ∨
        owner = ref.owner ∧ ¬ r.repository.DeclaredAlong ref) ∧
    (∀ path, r.repository.Climbs ref.owner path → path.length ≤ r.repository.nodes.length) ∧
    Counter.missingClass.tally (r.repository.selectStatic ref).events =
      (if r.repository.isDefined ref.owner then 0 else 1) ∧
    ∀ work v, r.Visited work.state →
      (∀ visitor < r.visitors,
        shownTo visitor (r.visit work v).events = (r.sitesOf work.state.asked v).flatMap r.made) ∧
      (r.visit work v).value.graph =
        work.graph.addAll (((r.sitesOf work.state.asked v).flatMap r.made).map r.kept) ∧
      ∀ s ∈ r.sitesOf work.state.asked v, s.kind = .static →
        s.owner.constants.methodRef s.index = .ok ref →
        ∀ d, ref.parsedDescriptor = .ok d → ∃ c, r.made s = [c] ∧
          c.targetSignature = .of (r.repository.selectStatic ref).value ref.name ref.descriptor ∧
          (c.isConcrete = true ↔ r.repository.DeclaredAlong ref) ∧
          ((r.kept c).isConcrete = true ↔ r.repository.DeclaredAlong ref) := by
  refine ⟨fun owner => Repository.selectStatic_eq_iff, fun path => Repository.Climbs.length_le,
    Repository.tally_selectStatic _ ref, ?_⟩
  intro work v hVisited
  have hAdds := visit_visited work v hVisited
  have hLists := callsOf_lists (r := r) work.state.asked v
  refine ⟨?_, ?_, ?_⟩
  · intro visitor hVisitor
    rw [hAdds.events, ← Traced.shownTo_callEvents, hLists.events, shownTo_sites, if_pos hVisitor]
  · rw [hAdds.graph, hLists.value]
  · intro s hs hKind hFound d hParsed
    obtain ⟨c, hMade, hSignature⟩ := made_of_static (r := r) hKind hFound hParsed
    have hConcrete : c.isConcrete = true ↔ r.repository.DeclaredAlong ref := by
      rw [isConcrete_iff_of_mem_made (hMade ▸ List.mem_singleton_self c), hSignature,
        Repository.declares_selectStatic_iff]
    refine ⟨c, hMade, hSignature, hConcrete, ?_⟩
    rw [isConcrete_kept, hConcrete]

end Resolver

/-- A class below two classes that extend each other. Both of these have the
method `f`, which is abstract in the nearer one. -/
def abstractLineage : Repository where
  hierarchy := {
    nodes := #[.define 1 (Repository.bareClass "t/C" (some "t/A") [] []) false,
      .define 2 (Repository.bareClass "t/A" (some "t/B") []
        [⟨.ofList [.accAbstract], "f", "()V", none⟩]) false,
      .define 3 (Repository.bareClass "t/B" (some "t/A") [] [⟨default, "f", "()V", none⟩]) false]
    links := #[⟨0, 1, .superclass⟩, ⟨1, 2, .superclass⟩, ⟨2, 1, .superclass⟩]
    distinct := by decide
    bounded := by decide }
  classCount := 3
  methodCount := 2

def lineageCode : Code where
  maxStack := 0
  maxLocals := 0
  instrs := [⟨⟨0⟩, .invokeStatic 6⟩, ⟨⟨3⟩, .invokeStatic 9⟩, ⟨⟨6⟩, .invokeStatic 12⟩,
    ⟨⟨9⟩, .ret .void⟩]
  handlers := []
  lines := []

def lineageMethod : MethodInfo := ⟨default, "k", "()V", some lineageCode⟩

/-- It calls `f` and `g` of the class below the others, and `f` of a class
that is not there. -/
def lineageCaller : ClassFile where
  flags := default
  name := "t/K"
  superclass := none
  interfaces := []
  constants := { entries := #[some (.utf8 "t/C"), some (.classRef 1), some (.utf8 "f"),
    some (.utf8 "()V"), some (.nameAndType 3 4), some (.methodRef 2 5), some (.utf8 "g"),
    some (.nameAndType 7 4), some (.methodRef 2 8), some (.utf8 "t/M"), some (.classRef 10),
    some (.methodRef 11 5)] }
  methods := [lineageMethod]

def lineageSite (address : Address) (index : PoolIndex) : CallSite :=
  ⟨lineageCaller, lineageMethod, lineageCode, ⟨address, .invokeStatic index⟩, .static, index⟩

def lineageResolver : Resolver where
  repository := abstractLineage
  visitors := 1

def lineageWork : Resolution := ⟨lineageResolver.initialState, .empty⟩

def lineageVisit : Traced Resolution :=
  lineageResolver.visit lineageWork (.ofMethod lineageCaller lineageMethod)

/-- The abstract method is taken, the search for the other one ends where
the classes repeat, and the class that is not there is counted. -/
theorem lineageCaller_static_calls :
    lineageResolver.Visited lineageWork.state ∧
      Counter.missingClass.tally
        (abstractLineage.selectStatic ⟨"t/M", "f", "()V", false⟩).events = 1 ∧
      ∃ first second third, shownTo 0 lineageVisit.events = [first, second, third] ∧
        first.isConcrete = true ∧ first.targetSignature = .of "t/A" "f" "()V" ∧
        second.isConcrete = false ∧ second.targetSignature = .of "t/C" "g" "()V" ∧
        third.isConcrete = false ∧ third.targetSignature = .of "t/M" "f" "()V" := by
  have hVisited : lineageResolver.Visited lineageWork.state := .initial
  obtain ⟨hOwnerF, -, -, hCallsF⟩ :=
    Resolver.static_calls_nearest lineageResolver ⟨"t/C", "f", "()V", false⟩
  obtain ⟨hOwnerG, -, -, hCallsG⟩ :=
    Resolver.static_calls_nearest lineageResolver ⟨"t/C", "g", "()V", false⟩
  obtain ⟨hOwnerM, -, hTally, hCallsM⟩ :=
    Resolver.static_calls_nearest lineageResolver ⟨"t/M", "f", "()V", false⟩
  have hSites : lineageResolver.sitesOf lineageWork.state.asked
      (.ofMethod lineageCaller lineageMethod) =
      [lineageSite ⟨0⟩ 6, lineageSite ⟨3⟩ 9, lineageSite ⟨6⟩ 12] := rfl
  obtain ⟨hShown, -, hSitesF⟩ := hCallsF _ (.ofMethod lineageCaller lineageMethod) hVisited
  obtain ⟨-, -, hSitesG⟩ := hCallsG _ (.ofMethod lineageCaller lineageMethod) hVisited
  obtain ⟨-, -, hSitesM⟩ := hCallsM _ (.ofMethod lineageCaller lineageMethod) hVisited
  rw [hSites] at hShown hSitesF hSitesG hSitesM
  have hParsed : MethodDescriptor.ofString "()V" = .ok ⟨[], .void⟩ := by cbv
  obtain ⟨first, hFirst, hSignatureF, hConcreteF, -⟩ :=
    hSitesF (lineageSite ⟨0⟩ 6) (by simp) rfl (by cbv) _ hParsed
  obtain ⟨second, hSecond, hSignatureG, hConcreteG, -⟩ :=
    hSitesG (lineageSite ⟨3⟩ 9) (by simp) rfl (by cbv) _ hParsed
  obtain ⟨third, hThird, hSignatureM, hConcreteM, -⟩ :=
    hSitesM (lineageSite ⟨6⟩ 12) (by simp) rfl (by cbv) _ hParsed
  have hParent : abstractLineage.superclass? "t/C" = some "t/A" := by cbv
  have hClimbs : abstractLineage.Climbs "t/C" ["t/C", "t/A"] :=
    ⟨.step hParent (.single "t/A") (by decide), by decide +kernel⟩
  have hDeclares : abstractLineage.Declares (.of "t/A" "f" "()V") :=
    Repository.declares_eq_true_iff.mp (by cbv)
  have hLacks : ∀ a ∈ ["t/C"], ¬ abstractLineage.Declares (.of a "f" "()V") := by
    intro a ha
    obtain rfl := List.mem_singleton.mp ha
    exact Repository.declares_eq_false_iff.mp (by cbv)
  have hNoneG : ¬ abstractLineage.DeclaredAlong ⟨"t/C", "g", "()V", false⟩ :=
    Repository.find?_declares_eq_none_iff.mp (by cbv)
  have hNoneM : ¬ abstractLineage.DeclaredAlong ⟨"t/M", "f", "()V", false⟩ :=
    Repository.not_declaredAlong (by cbv)
  rw [(hOwnerF "t/A").mpr (.inl ⟨["t/C"], hClimbs, hDeclares, hLacks⟩)] at hSignatureF
  rw [(hOwnerG "t/C").mpr (.inr ⟨rfl, hNoneG⟩)] at hSignatureG
  rw [(hOwnerM "t/M").mpr (.inr ⟨rfl, hNoneM⟩)] at hSignatureM
  refine ⟨hVisited, hTally.trans (by cbv), first, second, third, ?_, ?_, hSignatureF, ?_,
    hSignatureG, ?_, hSignatureM⟩
  · rw [lineageVisit, hShown 0 (by decide)]
    simp [hFirst, hSecond, hThird]
  · exact hConcreteF.mpr ⟨_, hClimbs, "t/A", by simp, hDeclares⟩
  · exact Bool.eq_false_iff.mpr fun hConcrete => hNoneG (hConcreteG.mp hConcrete)
  · exact Bool.eq_false_iff.mpr fun hConcrete => hNoneM (hConcreteM.mp hConcrete)

end JvmCalls
