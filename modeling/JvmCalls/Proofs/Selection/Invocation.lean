import JvmCalls.Proofs.Journal.Tally
import JvmCalls.Proofs.Resolver.Events
import JvmCalls.Proofs.Selection.Lineage
import JvmCalls.Proofs.Selection.Specificity

/-! Selection for virtual and special calls. A virtual call runs the nearest
implementation among the class of its receiver and the superclasses of
that class. Only where there is none, a default method is selected. A special
call asks the class it starts at first and then searches from the superclass
that the class file names. The same classes are found. -/
namespace JvmCalls

namespace Repository

/-- The class is defined and has the method, which is not abstract. Of
several methods that fit, the first one counts. -/
def Provides (r : Repository) (name descriptor owner : String) : Prop :=
  ∃ file m, r.definition? owner = some file ∧ file.findMethod? name descriptor = some m ∧
    m.isAbstract = false

/-- The first class that provides the method on the way from a class up its
superclasses. -/
def Nearest (r : Repository) (type name descriptor owner : String) : Prop :=
  ∃ before, r.Climbs type (before ++ [owner]) ∧ r.Provides name descriptor owner ∧
    ∀ a ∈ before, ¬ r.Provides name descriptor a

variable {r : Repository} {type name descriptor owner : String}

/-- The test of the search agrees with this. -/
theorem implements_eq_true_iff :
    r.implements name descriptor owner = true ↔ r.Provides name descriptor owner := by
  simp only [implements, findMethod?, Option.any_eq_true, Option.bind_eq_some_iff,
    Bool.not_eq_true', Provides]
  constructor
  · rintro ⟨m, ⟨file, hFile, hMethod⟩, hAbstract⟩
    exact ⟨file, m, hFile, hMethod, hAbstract⟩
  · rintro ⟨file, m, hFile, hMethod, hAbstract⟩
    exact ⟨m, ⟨file, hFile, hMethod⟩, hAbstract⟩

theorem implements_eq_false_iff :
    r.implements name descriptor owner = false ↔ ¬ r.Provides name descriptor owner := by
  rw [← implements_eq_true_iff, Bool.not_eq_true]

/-- The search through superclasses finds the nearest class that provides
the method. -/
theorem superclassSearch?_eq_some_iff :
    r.superclassSearch? type name descriptor = some owner ↔
      r.Nearest type name descriptor owner := by
  simp only [superclassSearch?, find?_definedLineage_eq_some_iff, implements_eq_true_iff,
    implements_eq_false_iff, Nearest]

/-- It finds nothing just if no class on the way up provides the method. -/
theorem superclassSearch?_eq_none_iff :
    r.superclassSearch? type name descriptor = none ↔
      ∀ path, r.Climbs type path → ∀ a ∈ path, ¬ r.Provides name descriptor a := by
  simp only [superclassSearch?, find?_definedLineage_eq_none_iff, implements_eq_false_iff]

/-- A method that is provided is found again when the target of a call is
looked up. -/
theorem Provides.isConcrete_target {resolver : Resolver}
    (h : resolver.repository.Provides name descriptor owner) :
    (resolver.target (.of owner name descriptor)).value.isConcrete = true := by
  obtain ⟨file, m, hFile, hMethod, -⟩ := h
  simp [Resolver.target, MethodSignature.of, hFile, hMethod, CallTarget.isConcrete]

/-- An applicable interface provides the method. -/
theorem Applicable.provides {interface : String}
    (h : r.Applicable owner name descriptor interface) : r.Provides name descriptor interface := by
  obtain ⟨file, m, hFile, hMethod, -, -, hAbstract⟩ := h.inheritable
  exact ⟨file, m, hFile, hMethod, hAbstract⟩

/-- Whatever is selected for a class that is defined can be run: it is
the class itself or one above it, and the method is there. -/
theorem provides_of_mem_selectVirtual (hDefined : r.isDefined type = true)
    (hMem : owner ∈ (r.selectVirtual (some type) name descriptor).value) :
    (owner = type ∨ r.hierarchy.Inherits type owner) ∧ r.Provides name descriptor owner := by
  rw [selectVirtual_of_isDefined hDefined, Traced.value_pure] at hMem
  cases hSearch : r.superclassSearch? type name descriptor with
  | none =>
      rw [hSearch] at hMem
      have hApplicable := (mem_maximallySpecific.mp hMem).1
      exact ⟨.inr (Hierarchy.inherits_of_mem_superinterfaces hApplicable.above),
        hApplicable.provides⟩
  | some found =>
      rw [hSearch] at hMem
      obtain rfl := List.mem_singleton.mp hMem
      obtain ⟨before, hClimbs, hProvides, -⟩ := superclassSearch?_eq_some_iff.mp hSearch
      refine ⟨?_, hProvides⟩
      have hPath := hClimbs.reaches List.mem_concat_self
      rcases Relation.reflTransGen_iff_eq_or_transGen.mp hPath with hSame | hSteps
      · exact .inl hSame
      · exact .inr (Relation.TransGen.mono (fun _ _ => Hierarchy.Extends.linked) _ _ hSteps)

/-- A virtual call on an object of a class that is not defined stands for
that class, which is counted as missing once. On one of a class that is
defined, it runs a method that there is. If some class among the
superclasses up to the first that is not defined or repeats provides the
method, the nearest of them is selected alone, and otherwise the maximally
specific superinterfaces are. -/
theorem selectVirtual_nearest (r : Repository) (type name descriptor : String) :
    (r.definition? type = none →
      (r.selectVirtual (some type) name descriptor).value = [type] ∧
        Counter.missingClass.tally (r.selectVirtual (some type) name descriptor).events = 1) ∧
    (r.definition? type ≠ none →
      Counter.missingClass.tally (r.selectVirtual (some type) name descriptor).events = 0 ∧
      (∀ owner ∈ (r.selectVirtual (some type) name descriptor).value,
        (owner = type ∨ r.hierarchy.Inherits type owner) ∧ r.Provides name descriptor owner ∧
          ∀ resolver : Resolver, resolver.repository = r →
            (resolver.target (.of owner name descriptor)).value.isConcrete = true) ∧
      ((∃ path, r.Climbs type path ∧ ∃ a ∈ path, r.Provides name descriptor a) →
        ∃ owner, r.Nearest type name descriptor owner ∧
          (r.selectVirtual (some type) name descriptor).value = [owner]) ∧
      ((∀ path, r.Climbs type path → ∀ a ∈ path, ¬ r.Provides name descriptor a) →
        (r.selectVirtual (some type) name descriptor).value =
          r.maximallySpecific type name descriptor)) := by
  constructor
  · intro hNone
    simp only [selectVirtual, isDefined, hNone]
    exact ⟨rfl, rfl⟩
  · intro hSome
    have hDefined : r.isDefined type = true := Option.isSome_iff_ne_none.mpr hSome
    refine ⟨?_, ?_, ?_, ?_⟩
    · rw [events_selectVirtual hDefined]
      rfl
    · intro owner hMem
      obtain ⟨hAbove, hProvides⟩ := provides_of_mem_selectVirtual hDefined hMem
      refine ⟨hAbove, hProvides, ?_⟩
      rintro resolver rfl
      exact hProvides.isConcrete_target
    · rintro ⟨path, hClimbs, a, ha, hProvides⟩
      rw [selectVirtual_of_isDefined hDefined]
      cases hSearch : r.superclassSearch? type name descriptor with
      | none =>
          exact False.elim (superclassSearch?_eq_none_iff.mp hSearch path hClimbs a ha hProvides)
      | some owner => exact ⟨owner, superclassSearch?_eq_some_iff.mp hSearch, rfl⟩
    · intro hNone
      rw [selectVirtual_of_isDefined hDefined, superclassSearch?_eq_none_iff.mpr hNone]
      rfl

/-- Two classes extend each other, one of them with an interface. A third
extends a class that is not there. -/
def brokenLineages : Repository where
  hierarchy := {
    nodes := #[.define 1 (bareClass "t/A" (some "t/B") ["t/I"]
        [⟨.ofList [.accAbstract], "f", "()V", none⟩]) false,
      .define 2 (bareClass "t/B" (some "t/A") [] [⟨default, "f", "()V", none⟩]) false,
      .define 3 (bareClass "t/I" none [] [⟨default, "g", "()V", none⟩]) false,
      .define 4 (bareClass "t/C" (some "t/M") ["t/I"] []) false,
      .placeholder 5 "t/M"]
    links := #[⟨0, 1, .superclass⟩, ⟨0, 2, .interface⟩, ⟨1, 0, .superclass⟩, ⟨3, 4, .superclass⟩,
      ⟨3, 2, .interface⟩]
    distinct := by decide
    bounded := by decide }
  classCount := 5
  methodCount := 3

/-- The abstract method is passed over, the searches for the other
method end at the repetition and at the gap, and the class that is not there stands
for itself. -/
theorem brokenLineages_selectVirtual :
    brokenLineages.Nearest "t/A" "f" "()V" "t/B" ∧
    (brokenLineages.selectVirtual (some "t/A") "f" "()V").value = ["t/B"] ∧
    (brokenLineages.selectVirtual (some "t/A") "g" "()V").value = ["t/I"] ∧
    (brokenLineages.selectVirtual (some "t/C") "g" "()V").value = ["t/I"] ∧
    (brokenLineages.selectVirtual (some "t/M") "f" "()V").value = ["t/M"] := by
  have hValue : (brokenLineages.selectVirtual (some "t/A") "f" "()V").value = ["t/B"] := by cbv
  have hCycle : brokenLineages.maximallySpecific "t/A" "g" "()V" = ["t/I"] := by cbv
  have hGap : brokenLineages.maximallySpecific "t/C" "g" "()V" = ["t/I"] := by cbv
  have hParent : brokenLineages.superclass? "t/A" = some "t/B" := by cbv
  have hCyclic : brokenLineages.definition? "t/A" ≠ none := Option.isSome_iff_ne_none.mp (by cbv)
  have hClimbs : brokenLineages.Climbs "t/A" ["t/A", "t/B"] :=
    ⟨.step hParent (.single "t/B") (by decide), by decide +kernel⟩
  have hProvides : brokenLineages.Provides "f" "()V" "t/B" :=
    implements_eq_true_iff.mp (by cbv)
  refine ⟨?_, hValue, ?_, ?_, ?_⟩
  · obtain ⟨-, -, hNearest, -⟩ :=
      (selectVirtual_nearest brokenLineages "t/A" "f" "()V").2 hCyclic
    obtain ⟨owner, hOwner, hOnly⟩ := hNearest ⟨_, hClimbs, "t/B", by simp, hProvides⟩
    obtain rfl : owner = "t/B" := List.singleton_inj.mp (hOnly.symm.trans hValue)
    exact hOwner
  · obtain ⟨-, -, -, hInterfaces⟩ :=
      (selectVirtual_nearest brokenLineages "t/A" "g" "()V").2 hCyclic
    rw [← hCycle]
    exact hInterfaces (superclassSearch?_eq_none_iff.mp (by cbv))
  · obtain ⟨-, -, -, hInterfaces⟩ :=
      (selectVirtual_nearest brokenLineages "t/C" "g" "()V").2
        (Option.isSome_iff_ne_none.mp (by cbv))
    rw [← hGap]
    exact hInterfaces (superclassSearch?_eq_none_iff.mp (by cbv))
  · exact ((selectVirtual_nearest brokenLineages "t/M" "f" "()V").1 (by cbv)).1

/-- What makes a special call start at the superclass of the calling class.
The class that it refers to is no interface, and superclasses of the
calling class lead to it. -/
structure StartsAbove (r : Repository) (caller : ClassFile) (ref : MethodRef) : Prop where
  flagged : caller.isSuper = true
  ordinary : ref.name ≠ constructorName
  proper : ∃ file, r.definition? ref.owner = some file ∧ file.isInterface = false
  descends : Relation.TransGen r.hierarchy.Extends caller.name ref.owner

/-- The class at which a special call starts. Without a superclass to start
at, it is the class that is referred to. -/
inductive SpecialStart (r : Repository) (caller : ClassFile) (ref : MethodRef) : String → Prop where
  | above {superclass : String} (hAbove : r.StartsAbove caller ref)
      (hSuperclass : caller.superclass = some superclass) : SpecialStart r caller ref superclass
  | referred (hElse : ¬ (r.StartsAbove caller ref ∧ caller.superclass.isSome = true)) :
      SpecialStart r caller ref ref.owner

variable {caller : ClassFile} {ref : MethodRef} {start parent : String} {file : ClassFile}

/-- The four conditions are tested as they are described. Only the last one
asks for superclasses of the calling class. -/
theorem startsAtSuperclass_iff :
    (r.startsAtSuperclass caller ref).value = true ↔ r.StartsAbove caller ref := by
  have hParts : r.StartsAbove caller ref ↔
      ((caller.isSuper = true ∧ ref.name ≠ constructorName) ∧
        ∃ file, r.definition? ref.owner = some file ∧ file.isInterface = false) ∧
          Relation.TransGen r.hierarchy.Extends caller.name ref.owner :=
    ⟨fun h => ⟨⟨⟨h.flagged, h.ordinary⟩, h.proper⟩, h.descends⟩,
      fun h => ⟨h.1.1.1, h.1.1.2, h.1.2, h.2⟩⟩
  rw [hParts, ← isSubclassOf_iff, startsAtSuperclass]
  split
  · next hAsked =>
      simp only [Bool.and_eq_true, bne_iff_ne, Option.any_eq_true, Bool.not_eq_true'] at hAsked
      exact (and_iff_right hAsked).symm
  · next hAsked =>
      simp only [Bool.and_eq_true, bne_iff_ne, Option.any_eq_true, Bool.not_eq_true'] at hAsked
      exact iff_of_false Bool.false_ne_true fun h => hAsked h.1

/-- A special call starts at one class, which is the described one. -/
theorem SpecialStart.value_eq (h : r.SpecialStart caller ref start) :
    (r.specialStart caller ref).value = start := by
  rw [specialStart, Traced.value_bind]
  cases h with
  | above hAbove hSuperclass =>
      rw [hSuperclass, startsAtSuperclass_iff.mpr hAbove]
      rfl
  | referred hElse =>
      cases hSuperclass : caller.superclass with
      | none => rfl
      | some superclass =>
          have hBelow : (r.startsAtSuperclass caller ref).value = false := by
            rw [Bool.eq_false_iff, ne_eq, startsAtSuperclass_iff]
            intro hAbove
            exact hElse ⟨hAbove, hSuperclass ▸ rfl⟩
          rw [hBelow]
          rfl

/-- Looking for the start counts nothing. At most a cycle is warned of. -/
theorem uncounted_specialStart (r : Repository) (caller : ClassFile) (ref : MethodRef)
    (c : Counter) : (r.specialStart caller ref).All fun e => e ≠ .counted c := by
  have hSubclass : (r.isSubclassOf caller.name ref.owner).All fun e => e ≠ .counted c := by
    unfold isSubclassOf
    simp only
    split
    · simp
    · split
      · simp
      · split
        · simp
        · simp
  simp only [specialStart, Traced.all_bind, startsAtSuperclass]
  constructor
  · split
    · exact hSubclass
    · simp
  · split
    · simp
    · simp

/-- A special call that starts at a class that is defined has nothing else
to report. -/
theorem events_selectSpecial (hStart : (r.specialStart caller ref).value = start)
    (hFile : r.definition? start = some file) :
    (r.selectSpecial caller ref).events = (r.specialStart caller ref).events := by
  simp only [selectSpecial, Traced.events_bind, hStart, hFile]
  split
  · simp
  · split
    · split
      · simp
      · simp
    · split
      · simp
      · simp

/-- It asks the class first. If that does not have the method, the search
goes on at the superclass that the class file names. -/
theorem value_selectSpecial (hStart : (r.specialStart caller ref).value = start)
    (hFile : r.definition? start = some file) (hClass : file.isInterface = false)
    (hParent : file.superclass = some parent) :
    (r.selectSpecial caller ref).value =
      if (file.findMethod? ref.name ref.descriptor).isSome then [start]
      else ((r.superclassSearch? parent ref.name ref.descriptor).map ([·])).getD
        (r.maximallySpecific start ref.name ref.descriptor) := by
  simp only [selectSpecial, Traced.value_bind, hStart, hFile, hClass, hParent, Option.bind_some]
  split
  · rfl
  · cases r.superclassSearch? parent ref.name ref.descriptor with
    | none => rfl
    | some found => rfl

/-- A class that provides the method is the nearest to itself. -/
theorem Provides.superclassSearch? (h : r.Provides name descriptor owner) :
    r.superclassSearch? owner name descriptor = some owner := by
  have hDefined : r.isDefined owner = true := by
    obtain ⟨file, m, hFile, -⟩ := h
    rw [isDefined, hFile, Option.isSome_some]
  exact superclassSearch?_eq_some_iff.mpr
    ⟨[], ⟨.single owner, by simpa using hDefined⟩, h, by simp⟩

/-- The repository is closed once, after all classes were registered. A
special call that starts at a class of a class file with a superclass, where
the method is not abstract, selects what a virtual call on an object of
that class selects, and neither misses a class. -/
theorem selectSpecial_eq_selectVirtual {history : List RepositoryOp} {r : Repository}
    (hOpen : ∀ op ∈ history, op ≠ .close) (hRun : performAll {} (history ++ [.close]) = .ok r)
    {caller : ClassFile} {ref : MethodRef} {start parent : String} {file : ClassFile}
    (hStart : r.SpecialStart caller ref start) (hFile : r.definition? start = some file)
    (hClass : file.isInterface = false) (hParent : file.superclass = some parent)
    (hConcrete : ∀ m, file.findMethod? ref.name ref.descriptor = some m → m.isAbstract = false) :
    (r.selectSpecial caller ref).value =
        (r.selectVirtual (some start) ref.name ref.descriptor).value ∧
      Counter.missingClass.tally (r.selectSpecial caller ref).events = 0 ∧
      Counter.missingClass.tally (r.selectVirtual (some start) ref.name ref.descriptor).events =
        0 := by
  have hDefined : r.isDefined start = true := by rw [isDefined, hFile, Option.isSome_some]
  refine ⟨?_, ?_, ?_⟩
  · rw [value_selectSpecial hStart.value_eq hFile hClass hParent,
      selectVirtual_of_isDefined hDefined, Traced.value_pure]
    cases hMethod : file.findMethod? ref.name ref.descriptor with
    | some m =>
        have hProvides : r.Provides ref.name ref.descriptor start :=
          ⟨file, m, hFile, hMethod, hConcrete m hMethod⟩
        rw [hProvides.superclassSearch?]
        rfl
    | none =>
        have hLacks : r.implements ref.name ref.descriptor start = false := by
          rw [implements, findMethod?, hFile, Option.bind_some, hMethod, Option.any_none]
        have hLink := superclass?_of_closed_last hOpen hRun hFile hParent
        rw [superclassSearch?, superclassSearch?,
          find?_definedLineage_superclass hDefined hLink hLacks]
        rfl
  · rw [events_selectSpecial hStart.value_eq hFile]
    exact Counter.tally_eq_zero (uncounted_specialStart r caller ref .missingClass)
  · rw [events_selectVirtual hDefined]
    rfl

/-- A class whose special calls go to its superclass. -/
def superCaller : ClassFile :=
  { bareClass "t/K" (some "t/C") [] [] with flags := .ofList [.accSuper] }

/-- The superclass of the caller and its own superclass extend each other.
The method is in an interface. -/
def cyclicParents : List RepositoryOp :=
  [.register superCaller false,
    .register (bareClass "t/C" (some "t/B") ["t/I"] []) false,
    .register (bareClass "t/B" (some "t/C") [] []) false,
    .register (bareClass "t/I" none [] [⟨default, "g", "()V", none⟩]) false]

/-- A call that refers to the upper class starts at the lower one. -/
theorem cyclicParents_selectSpecial :
    ∃ r, performAll {} (cyclicParents ++ [.close]) = .ok r ∧
      r.SpecialStart superCaller ⟨"t/B", "g", "()V", false⟩ "t/C" ∧
      (r.selectSpecial superCaller ⟨"t/B", "g", "()V", false⟩).value =
        (r.selectVirtual (some "t/C") "g" "()V").value := by
  obtain ⟨r, hRun, hView⟩ := performAll_shows {} (cyclicParents ++ [.close])
  rw [view_empty] at hView
  have hUpper : r.view.definition? "t/B" = some (bareClass "t/B" (some "t/C") [] []) := by
    rw [hView]
    rfl
  have hLower : r.view.definition? "t/C" = some (bareClass "t/C" (some "t/B") ["t/I"] []) := by
    rw [hView]
    rfl
  have hFirst : r.superclass? superCaller.name = some "t/C" := by
    rw [superclass?_view, hView]
    decide
  have hSecond : r.superclass? "t/C" = some "t/B" := by
    rw [superclass?_view, hView]
    decide
  have hAbove : r.StartsAbove superCaller ⟨"t/B", "g", "()V", false⟩ :=
    ⟨by decide, by decide, ⟨_, hUpper, by decide⟩, .tail (.single hFirst) hSecond⟩
  have hStart := SpecialStart.above hAbove rfl
  have hOpen : ∀ op ∈ cyclicParents, op ≠ .close := by simp [cyclicParents]
  exact ⟨r, hRun, hStart, (selectSpecial_eq_selectVirtual hOpen hRun hStart hLower (by decide) rfl
    (by simp [bareClass, ClassFile.findMethod?])).1⟩

end Repository

end JvmCalls
