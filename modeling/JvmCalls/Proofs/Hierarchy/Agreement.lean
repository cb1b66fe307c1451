import JvmCalls.Proofs.Hierarchy.Inheritance
import JvmCalls.Proofs.Hierarchy.View

/-! Repositories that agree about their classes, whatever the order in which
they came to know them. They agree about superclasses, about what inherits
from what and about interfaces, so that only the order of such answers may
differ. -/
namespace JvmCalls

namespace RepositoryView

/-- The links of one class, in the order of insertion. The first one to a
superclass counts. -/
def linksOf (v : RepositoryView) (name : String) : List NamedLink :=
  v.links.filter fun l => l.name == name

/-- Two views differ in nothing but the order of classes. The links of
each class stand in the same order in both. -/
structure Agree (v w : RepositoryView) : Prop where
  names : ∀ name, name ∈ v.names ↔ name ∈ w.names
  definitions : ∀ name, v.definition? name = w.definition? name
  links : ∀ name, v.linksOf name = w.linksOf name

variable {v w : RepositoryView}

theorem mem_linksOf {name : String} {l : NamedLink} :
    l ∈ v.linksOf name ↔ l ∈ v.links ∧ l.name = name := by
  rw [linksOf, List.mem_filter, beq_iff_eq]

/-- Views that agree have the same links, as every link is one of
some class. -/
theorem Agree.mem_links (h : v.Agree w) {l : NamedLink} : l ∈ v.links ↔ l ∈ w.links := by
  have hOf : l ∈ v.linksOf l.name ↔ l ∈ w.linksOf l.name := by rw [h.links]
  rw [mem_linksOf, mem_linksOf] at hOf
  simpa using hOf

/-- The superclass of a class depends on the links of this class only. -/
theorem superclass?_eq_linksOf (name : String) :
    v.superclass? name =
      ((v.linksOf name).find? fun l => l.kind == .superclass).map NamedLink.parent := by
  rw [superclass?, linksOf, List.find?_filter]
  simp only [Bool.decide_and, Bool.decide_eq_true]

/-- Views that agree give each class the same superclass. -/
theorem Agree.superclass? (h : v.Agree w) (name : String) :
    v.superclass? name = w.superclass? name := by
  rw [superclass?_eq_linksOf, superclass?_eq_linksOf, h.links]

end RepositoryView

namespace Hierarchy

/-- A position of one hierarchy and one of another hold classes of the same
name. Positions depend on the order of registration, and names do not. -/
def SameClass (h k : Hierarchy) (i j : Nat) : Prop :=
  ∃ name, h.nameAt? i = some name ∧ k.nameAt? j = some name

variable {h k : Hierarchy}

/-- Names are distinct, so that a position goes together with one other at
most. -/
theorem SameClass.unique {i j i' j' : Nat} (hFirst : h.SameClass k i j)
    (hSecond : h.SameClass k i' j') : i = i' ↔ j = j' := by
  obtain ⟨name, hi, hj⟩ := hFirst
  obtain ⟨name', hi', hj'⟩ := hSecond
  constructor
  · rintro rfl
    obtain rfl : name = name' := Option.some.inj (hi.symm.trans hi')
    exact nameAt?_inj hj hj'
  · rintro rfl
    obtain rfl : name = name' := Option.some.inj (hj.symm.trans hj')
    exact nameAt?_inj hi hi'

theorem SameClass.mem_positions {i j : Nat} (hSame : h.SameClass k i j) :
    i ∈ h.positions ↔ j ∈ k.positions := by
  obtain ⟨name, hi, hj⟩ := hSame
  exact iff_of_true (Hierarchy.mem_positions.mpr ⟨name, hi⟩)
    (Hierarchy.mem_positions.mpr ⟨name, hj⟩)

/-- Lists of positions that go together name the same classes in the same
order. -/
theorem namesAt_eq_of_sameClass {l m : List Nat} (hSame : List.Forall₂ (h.SameClass k) l m) :
    h.namesAt l = k.namesAt m := by
  induction hSame with
  | nil => rfl
  | cons hFirst hRest ih =>
      obtain ⟨name, hi, hj⟩ := hFirst
      rw [namesAt, namesAt, List.filterMap_cons_some hi, List.filterMap_cons_some hj]
      exact congrArg (name :: ·) ih

theorem nameAt?_eq_of_rel {a b : Option Nat} (hRel : Option.Rel (h.SameClass k) a b) :
    a.bind h.nameAt? = b.bind k.nameAt? := by
  cases hRel with
  | none => rfl
  | some hSame =>
      obtain ⟨name, hi, hj⟩ := hSame
      rw [Option.bind_some, Option.bind_some, hi, hj]

theorem nameAt?_find? (name : String) :
    (h.find? name).bind h.nameAt? = if name ∈ h.names then some name else none := by
  cases hFind : h.find? name with
  | none => exact (if_neg (find?_eq_none_iff.mp hFind)).symm
  | some i =>
      have hName := find?_eq_some_iff.mp hFind
      have hKnown : name ∈ h.names := contains_iff.mp (by rw [contains, hFind]; rfl)
      rw [Option.bind_some, hName, if_pos hKnown]

/-- Looking for the superclass by name and by position is the same. -/
theorem superclass?_of_nameAt? {i : Nat} {name : String} (hAt : h.nameAt? i = some name) :
    h.superclass? name = (h.superOf? i).bind h.nameAt? := by
  rw [superclass?, find?_eq_some_iff.mpr hAt, Option.bind_some]

theorem nameAt?_of_superOf? {i j : Nat} (hSuper : h.superOf? i = some j) :
    ∃ name, h.nameAt? j = some name :=
  nameAt?_of_mem_parentsBy (List.mem_of_head? hSuper)

/-- Positions that have the same name, or both do not exist. It carries
agreement over from names to positions. -/
theorem rel_of_nameAt? {a b : Option Nat} (hNames : a.bind h.nameAt? = b.bind k.nameAt?)
    (hLeft : ∀ i, a = some i → ∃ name, h.nameAt? i = some name)
    (hRight : ∀ j, b = some j → ∃ name, k.nameAt? j = some name) :
    Option.Rel (h.SameClass k) a b := by
  cases a with
  | none =>
      cases b with
      | none => exact .none
      | some j =>
          obtain ⟨name, hj⟩ := hRight j rfl
          rw [Option.bind_none, Option.bind_some, hj] at hNames
          cases hNames
  | some i =>
      obtain ⟨name, hi⟩ := hLeft i rfl
      cases b with
      | none =>
          rw [Option.bind_none, Option.bind_some, hi] at hNames
          cases hNames
      | some j =>
          rw [Option.bind_some, Option.bind_some, hi] at hNames
          exact .some ⟨name, hi, hNames.symm⟩

/-- Superclasses of classes of the same name are such classes, so that two
walks along superclasses stay side by side. -/
theorem SameClass.superOf? (hSuperclasses : ∀ name, h.superclass? name = k.superclass? name)
    {i j : Nat} (hSame : h.SameClass k i j) :
    Option.Rel (h.SameClass k) (h.superOf? i) (k.superOf? j) := by
  obtain ⟨name, hi, hj⟩ := hSame
  apply rel_of_nameAt?
  · rw [← superclass?_of_nameAt? hi, ← superclass?_of_nameAt? hj, hSuperclasses]
  · intro a hSuper
    exact nameAt?_of_superOf? hSuper
  · intro b hSuper
    exact nameAt?_of_superOf? hSuper

/-- The lineages of classes of the same name go through classes of the same
names. Where one of them repeats, so does the other, at the same class. -/
theorem SameClass.lineage (hSuperclasses : ∀ name, h.superclass? name = k.superclass? name)
    {i j : Nat} (hSame : h.SameClass k i j) :
    List.Forall₂ (h.SameClass k) (h.lineage i).visited (k.lineage j).visited ∧
      Option.Rel (h.SameClass k) (h.lineage i).repeated (k.lineage j).repeated :=
  Reach.chain_related (fun _ _ _ _ => SameClass.unique) (fun _ _ => superOf? hSuperclasses) hSame
    List.nodup_range List.nodup_range fun _ _ => SameClass.mem_positions

/-- Classes are linked just if there is a link by these names, of either
kind. -/
theorem linked_iff {name parent : String} :
    h.Linked name parent ↔ ∃ kind, ⟨name, parent, kind⟩ ∈ h.namedLinks := by
  simp only [Linked, mem_namedLinks]
  constructor
  · rintro ⟨l, hl, hSource, hTarget⟩
    exact ⟨l.kind, l, hl, hSource, hTarget, rfl⟩
  · rintro ⟨kind, l, hl, hSource, hTarget, _⟩
    exact ⟨l, hl, hSource, hTarget⟩

/-- Interfaces are linked by links of their kind. -/
theorem implements_iff {name parent : String} :
    h.Implements name parent ↔ ⟨name, parent, .interface⟩ ∈ h.namedLinks := by
  rw [mem_namedLinks]
  constructor
  · rintro ⟨l, hl, hKind, hSource, hTarget⟩
    exact ⟨l, hl, hSource, hTarget, hKind⟩
  · rintro ⟨l, hl, hSource, hTarget, hKind⟩
    exact ⟨l, hl, hKind, hSource, hTarget⟩

end Hierarchy

namespace Repository

variable {r s : Repository}

section Agree

variable (hAgree : r.view.Agree s.view)

include hAgree

theorem definition?_agree : r.definition? = s.definition? := by
  funext name
  exact hAgree.definitions name

theorem isDefined_agree : r.isDefined = s.isDefined := by
  funext name
  rw [isDefined, isDefined, definition?_agree hAgree]

theorem superclass?_agree (name : String) :
    r.hierarchy.superclass? name = s.hierarchy.superclass? name := by
  show r.superclass? name = s.superclass? name
  rw [superclass?_view, superclass?_view, hAgree.superclass?]

/-- A name is found in both repositories or in none. The positions need not
be the same. -/
theorem find?_agree (name : String) :
    Option.Rel (r.hierarchy.SameClass s.hierarchy) (r.hierarchy.find? name)
      (s.hierarchy.find? name) := by
  apply Hierarchy.rel_of_nameAt?
  · rw [Hierarchy.nameAt?_find?, Hierarchy.nameAt?_find?]
    exact if_congr (hAgree.names name) rfl rfl
  · intro i hFind
    exact ⟨name, Hierarchy.find?_eq_some_iff.mp hFind⟩
  · intro j hFind
    exact ⟨name, Hierarchy.find?_eq_some_iff.mp hFind⟩

/-- The superclasses of a class are listed alike, the order included. -/
theorem lineage_agree (name : String) : r.lineage name = s.lineage name := by
  have hFind := find?_agree hAgree name
  unfold lineage
  generalize r.hierarchy.find? name = left at hFind
  generalize s.hierarchy.find? name = right at hFind
  cases hFind with
  | none => rfl
  | some hSame =>
      exact Hierarchy.namesAt_eq_of_sameClass (hSame.lineage (superclass?_agree hAgree)).1

/-- The start of a search through superclasses, which is the superclass and
not the class itself. -/
theorem superOf?_find?_agree (name : String) :
    Option.Rel (r.hierarchy.SameClass s.hierarchy)
      ((r.hierarchy.find? name).bind r.hierarchy.superOf?)
      ((s.hierarchy.find? name).bind s.hierarchy.superOf?) := by
  have hFind := find?_agree hAgree name
  generalize r.hierarchy.find? name = left at hFind
  generalize s.hierarchy.find? name = right at hFind
  cases hFind with
  | none => exact .none
  | some hSame => exact hSame.superOf? (superclass?_agree hAgree)

/-- Both repositories answer alike and warn alike about a cycle. -/
theorem isSubclassOf_agree (name ancestor : String) :
    r.isSubclassOf name ancestor = s.isSubclassOf name ancestor := by
  have hStart := superOf?_find?_agree hAgree name
  simp only [isSubclassOf]
  generalize (r.hierarchy.find? name).bind r.hierarchy.superOf? = left at hStart
  generalize (s.hierarchy.find? name).bind s.hierarchy.superOf? = right at hStart
  cases hStart with
  | none => rfl
  | some hSame =>
      obtain ⟨hVisited, hRepeated⟩ := hSame.lineage (superclass?_agree hAgree)
      simp only [Hierarchy.namesAt_eq_of_sameClass hVisited, Hierarchy.nameAt?_eq_of_rel hRepeated]

theorem linked_agree : r.hierarchy.Linked = s.hierarchy.Linked := by
  funext name parent
  apply propext
  rw [Hierarchy.linked_iff, Hierarchy.linked_iff]
  exact exists_congr fun kind => hAgree.mem_links

/-- Both repositories have the same subclasses of a class. Their order may
differ, as it is that of registration. -/
theorem mem_subclasses_agree {name ancestor : String} :
    name ∈ r.subclasses ancestor ↔ name ∈ s.subclasses ancestor := by
  rw [subclasses, subclasses, Hierarchy.mem_subclasses, Hierarchy.mem_subclasses,
    Hierarchy.Inherits, Hierarchy.Inherits, linked_agree hAgree]

/-- Both repositories have the same interfaces above a class. -/
theorem mem_superinterfaces_agree {name parent : String} :
    parent ∈ r.superinterfaces name ↔ parent ∈ s.superinterfaces name := by
  have hImplements (ancestor : String) : r.hierarchy.Implements ancestor parent ↔
      s.hierarchy.Implements ancestor parent := by
    rw [Hierarchy.implements_iff, Hierarchy.implements_iff]
    exact hAgree.mem_links
  rw [superinterfaces, superinterfaces, Hierarchy.mem_superinterfaces,
    Hierarchy.mem_superinterfaces, linked_agree hAgree]
  simp only [hImplements]

end Agree

end Repository

end JvmCalls
