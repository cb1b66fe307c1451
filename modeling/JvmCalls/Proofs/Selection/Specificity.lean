import JvmCalls.Proofs.Hierarchy.Queries
import JvmCalls.Proofs.Selection.Agreement
import Mathlib

/-! The default methods that a class may inherit. Of the interfaces above it
that have one, those are left that no other of them overrides. Where the
links above the class have no cycle, each of the interfaces is left or
overridden by one that is left. -/
namespace JvmCalls

/-- Each name is listed once. -/
theorem sortedNames_ascending (names : List String) : (sortedNames names).Pairwise (· < ·) := by
  have hNodup : (sortedNames names).Nodup :=
    (List.mergeSort_perm _ _).nodup_iff.mpr (nodup_eraseDups names)
  refine ((pairwise_sortedNames names).and hNodup).imp ?_
  rintro a b ⟨hLe, hNe⟩
  exact String.not_le.mp fun hBack => hNe (String.le_antisymm (of_decide_eq_true hLe) hBack)

namespace Hierarchy

/-- No path of links from the class leads into a cycle. A repository may
have cycles elsewhere. -/
def AcyclicAbove (h : Hierarchy) (name : String) : Prop :=
  ∀ ancestor, Relation.ReflTransGen h.Linked name ancestor → ¬ h.Inherits ancestor ancestor

variable {h : Hierarchy} {name parent : String}

/-- A superinterface is inherited from, over any number of links. -/
theorem inherits_of_mem_superinterfaces (hMem : parent ∈ h.superinterfaces name) :
    h.Inherits name parent := by
  obtain ⟨ancestor, hPath, hLast⟩ := mem_superinterfaces.mp hMem
  exact .tail' hPath hLast.linked

/-- What is above an interface of a class is above the class. -/
theorem superinterfaces_trans {interface : String} (hMiddle : interface ∈ h.superinterfaces name)
    (hAbove : parent ∈ h.superinterfaces interface) : parent ∈ h.superinterfaces name := by
  obtain ⟨ancestor, hPath, hLast⟩ := mem_superinterfaces.mp hAbove
  have hBelow := (inherits_of_mem_superinterfaces hMiddle).to_reflTransGen
  exact mem_superinterfaces.mpr ⟨ancestor, hBelow.trans hPath, hLast⟩

/-- There is no cycle where links lead to classes that were created
earlier. -/
theorem acyclicAbove_of_descending (hLinks : ∀ l ∈ h.links, l.target < l.source) (name : String) :
    h.AcyclicAbove name := by
  have hEarlier {below above : String} (hInherits : h.Inherits below above) :
      ∀ i j, h.nameAt? i = some below → h.nameAt? j = some above → j < i := by
    induction hInherits with
    | single hLinked =>
        intro i j hi hj
        obtain ⟨l, hl, hSource, hTarget⟩ := hLinked
        rw [nameAt?_inj hi hSource, nameAt?_inj hj hTarget]
        exact hLinks l hl
    | tail _ hLinked ih =>
        intro i j hi hj
        obtain ⟨l, hl, hSource, hTarget⟩ := hLinked
        rw [nameAt?_inj hj hTarget]
        exact (hLinks l hl).trans (ih i l.source hi hSource)
  intro ancestor _ hCycle
  obtain ⟨_, ⟨l, -, hName, -⟩, -⟩ := Relation.TransGen.head'_iff.mp hCycle
  exact Nat.lt_irrefl _ (hEarlier hCycle l.source l.source hName hName)

end Hierarchy

namespace Repository

/-- The interface is above the class, and the repository has its definition,
with the method as one that can be inherited. -/
structure Applicable (r : Repository) (owner name descriptor interface : String) : Prop where
  above : interface ∈ r.superinterfaces owner
  inheritable : ∃ file m, r.definition? interface = some file ∧
    file.findMethod? name descriptor = some m ∧ m.isPrivate = false ∧ m.isStatic = false ∧
    m.isAbstract = false

variable {r : Repository} {owner name descriptor interface : String}

/-- What the search filters out of the superinterfaces are those that are
not applicable. -/
theorem mem_applicableInterfaces : interface ∈ r.applicableInterfaces owner name descriptor ↔
    r.Applicable owner name descriptor interface := by
  have hDefault : r.isDefaultMethod name descriptor interface = true ↔
      ∃ file m, r.definition? interface = some file ∧ file.findMethod? name descriptor = some m ∧
        m.isPrivate = false ∧ m.isStatic = false ∧ m.isAbstract = false := by
    simp only [isDefaultMethod, findMethod?, Option.any_eq_true, Option.bind_eq_some_iff,
      Bool.and_eq_true, Bool.not_eq_true']
    constructor
    · rintro ⟨m, ⟨file, hFile, hMethod⟩, ⟨hPrivate, hStatic⟩, hAbstract⟩
      exact ⟨file, m, hFile, hMethod, hPrivate, hStatic, hAbstract⟩
    · rintro ⟨file, m, hFile, hMethod, hPrivate, hStatic, hAbstract⟩
      exact ⟨m, ⟨file, hFile, hMethod⟩, ⟨hPrivate, hStatic⟩, hAbstract⟩
  rw [applicableInterfaces, List.mem_filter, hDefault]
  exact ⟨fun h => ⟨h.1, h.2⟩, fun h => ⟨h.above, h.inheritable⟩⟩

/-- An applicable interface is left just if no applicable one is below
it. -/
theorem mem_maximallySpecific : interface ∈ r.maximallySpecific owner name descriptor ↔
    r.Applicable owner name descriptor interface ∧
      ∀ other, r.Applicable owner name descriptor other → interface ∉ r.superinterfaces other := by
  simp [maximallySpecific, sortedNames, mem_sortedDistinct, mem_applicableInterfaces]

/-- Among the applicable interfaces, one overrides those above it. It is a
relation on a finite type, so that it is well founded where it has no
cycle. -/
def Overrides (r : Repository) (owner name descriptor : String)
    (i j : { i // i ∈ r.applicableInterfaces owner name descriptor }) : Prop :=
  j.1 ∈ r.superinterfaces i.1

/-- Going from an interface to one that overrides it ends, as there are
finitely many of them and none comes again. -/
theorem wellFounded_overrides (hAcyclic : r.hierarchy.AcyclicAbove owner) :
    WellFounded (r.Overrides owner name descriptor) := by
  have hTrans : IsTrans _ (r.Overrides owner name descriptor) :=
    ⟨fun i j k => Hierarchy.superinterfaces_trans⟩
  have hIrrefl : Std.Irrefl (r.Overrides owner name descriptor) := by
    constructor
    intro i hSelf
    have hAbove := (mem_applicableInterfaces.mp i.2).above
    exact hAcyclic i.1 (Hierarchy.inherits_of_mem_superinterfaces hAbove).to_reflTransGen
      (Hierarchy.inherits_of_mem_superinterfaces hSelf)
  exact Finite.wellFounded_of_trans_of_irrefl _

/-- Going down from an applicable interface to one that overrides it ends at
one that is left. -/
theorem Applicable.covered (hAcyclic : r.hierarchy.AcyclicAbove owner)
    (h : r.Applicable owner name descriptor interface) :
    interface ∈ r.maximallySpecific owner name descriptor ∨
      ∃ other ∈ r.maximallySpecific owner name descriptor,
        interface ∈ r.superinterfaces other := by
  have hCovered (i : { i // i ∈ r.applicableInterfaces owner name descriptor }) :
      i.1 ∈ r.maximallySpecific owner name descriptor ∨
        ∃ other ∈ r.maximallySpecific owner name descriptor, i.1 ∈ r.superinterfaces other := by
    induction i using (wellFounded_overrides hAcyclic).induction with
    | _ i ih =>
        by_cases hLeft : i.1 ∈ r.maximallySpecific owner name descriptor
        · exact .inl hLeft
        · -- Some interface overrides it, and is left or overridden by one that is.
          rw [mem_maximallySpecific] at hLeft
          push Not at hLeft
          obtain ⟨other, hOther, hAbove⟩ := hLeft (mem_applicableInterfaces.mp i.2)
          rcases ih ⟨other, mem_applicableInterfaces.mpr hOther⟩ hAbove with
            hMem | ⟨last, hMem, hLast⟩
          · exact .inr ⟨other, hMem, hAbove⟩
          · exact .inr ⟨last, hMem, Hierarchy.superinterfaces_trans hLast hAbove⟩
  exact hCovered ⟨interface, mem_applicableInterfaces.mpr h⟩

/-- The maximally specific superinterfaces are listed in ascending order,
and are those applicable ones that are not above any applicable one. If no
path from the class leads into a cycle, none of them is above another, and
each applicable interface is one of them or above one, so that there are
none only where nothing is applicable. -/
theorem maximallySpecific_exact (r : Repository) (owner name descriptor : String) :
    (r.maximallySpecific owner name descriptor).Pairwise (· < ·) ∧
    (∀ interface, interface ∈ r.maximallySpecific owner name descriptor ↔
      r.Applicable owner name descriptor interface ∧
        ∀ other, r.Applicable owner name descriptor other →
          interface ∉ r.superinterfaces other) ∧
    (r.hierarchy.AcyclicAbove owner →
      (∀ interface ∈ r.maximallySpecific owner name descriptor,
        ∀ other ∈ r.maximallySpecific owner name descriptor,
          interface ∉ r.superinterfaces other) ∧
      (∀ interface, r.Applicable owner name descriptor interface →
        interface ∈ r.maximallySpecific owner name descriptor ∨
          ∃ other ∈ r.maximallySpecific owner name descriptor,
            interface ∈ r.superinterfaces other) ∧
      (r.maximallySpecific owner name descriptor = [] →
        ∀ interface, ¬ r.Applicable owner name descriptor interface)) := by
  refine ⟨sortedNames_ascending _, fun interface => mem_maximallySpecific, ?_⟩
  intro hAcyclic
  refine ⟨?_, fun interface h => h.covered hAcyclic, ?_⟩
  · intro interface hMem other hOther
    exact (mem_maximallySpecific.mp hMem).2 other (mem_maximallySpecific.mp hOther).1
  · intro hEmpty interface hApplicable
    rcases hApplicable.covered hAcyclic with hMem | ⟨other, hMem, -⟩
    · exact List.not_mem_nil (hEmpty ▸ hMem)
    · exact List.not_mem_nil (hEmpty ▸ hMem)

/-- A class without flags and constants. -/
def bareClass (name : String) (superclass : Option String) (interfaces : List String)
    (methods : List MethodInfo) : ClassFile where
  flags := default
  name := name
  superclass := superclass
  interfaces := interfaces
  constants := {}
  methods := methods

/-- A class names an interface again that another one of its interfaces
overrides. A third interface comes from its superclass. -/
def diamond : Repository where
  hierarchy := {
    nodes := #[.define 1 (bareClass "t/I" none [] [⟨default, "g", "()V", none⟩]) false,
      .define 2 (bareClass "t/J" none ["t/I"] [⟨default, "g", "()V", none⟩]) false,
      .define 3 (bareClass "t/K" none [] [⟨default, "g", "()V", none⟩]) false,
      .define 4 (bareClass "t/P" none ["t/K"] []) false,
      .define 5 (bareClass "t/C" (some "t/P") ["t/I", "t/J"] []) false]
    links := #[⟨1, 0, .interface⟩, ⟨3, 2, .interface⟩, ⟨4, 3, .superclass⟩, ⟨4, 0, .interface⟩,
      ⟨4, 1, .interface⟩]
    distinct := by decide
    bounded := by decide }
  classCount := 5
  methodCount := 3

/-- The choice between two default methods is open, and the third is
overridden. -/
theorem diamond_maximallySpecific :
    diamond.hierarchy.AcyclicAbove "t/C" ∧
      diamond.maximallySpecific "t/C" "g" "()V" = ["t/J", "t/K"] ∧
      diamond.Applicable "t/C" "g" "()V" "t/I" ∧
      "t/I" ∈ diamond.superinterfaces "t/J" ∧ "t/I" ∉ diamond.superinterfaces "t/K" ∧
      "t/J" ∉ diamond.superinterfaces "t/K" ∧ "t/K" ∉ diamond.superinterfaces "t/J" := by
  have hLeft : diamond.maximallySpecific "t/C" "g" "()V" = ["t/J", "t/K"] := by cbv
  have hAll : diamond.applicableInterfaces "t/C" "g" "()V" = ["t/I", "t/J", "t/K"] := by cbv
  have hApplicable : diamond.Applicable "t/C" "g" "()V" "t/I" := by
    rw [← mem_applicableInterfaces, hAll]
    exact List.mem_cons_self
  have hNone : diamond.superinterfaces "t/K" = [] := by cbv
  have hOther : "t/I" ∉ diamond.superinterfaces "t/K" := hNone ▸ List.not_mem_nil
  have hAcyclic : diamond.hierarchy.AcyclicAbove "t/C" :=
    Hierarchy.acyclicAbove_of_descending (by decide) "t/C"
  obtain ⟨-, -, hExact⟩ := maximallySpecific_exact diamond "t/C" "g" "()V"
  obtain ⟨hApart, hCovered, -⟩ := hExact hAcyclic
  rw [hLeft] at hApart hCovered
  refine ⟨hAcyclic, hLeft, hApplicable, ?_, hOther, hApart _ (by simp) _ (by simp),
    hApart _ (by simp) _ (by simp)⟩
  rcases hCovered "t/I" hApplicable with hMem | ⟨other, hMem, hAbove⟩
  · exact absurd hMem (by decide)
  · rcases List.mem_pair.mp hMem with rfl | rfl
    · exact hAbove
    · exact False.elim (hOther hAbove)

end Repository

end JvmCalls
