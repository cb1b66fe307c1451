import JvmCalls.Hierarchy.Repository
import JvmCalls.Proofs.Reach

/-! Inheritance as a relation between names of classes, and the searches for
subclasses and superinterfaces, which find all that inherit from a class and
all interfaces above it, whatever the shape of the hierarchy. -/
namespace JvmCalls.Hierarchy

/-- A link leads from a class to another, be it to its superclass or to an
interface. -/
def Linked (h : Hierarchy) (name parent : String) : Prop :=
  ∃ l ∈ h.links, h.nameAt? l.source = some name ∧ h.nameAt? l.target = some parent

/-- A path of one or more links leads from a class to another. -/
def Inherits (h : Hierarchy) : String → String → Prop := Relation.TransGen h.Linked

variable {h : Hierarchy}

/-- Every position up to the number of classes holds one. -/
theorem mem_positions {i : Nat} : i ∈ h.positions ↔ ∃ name, h.nameAt? i = some name := by
  rw [positions, List.mem_range]
  constructor
  · intro hi
    exact ⟨_, nameAt?_eq_some_iff.mpr ⟨hi, rfl⟩⟩
  · rintro ⟨name, hName⟩
    exact (nameAt?_eq_some_iff.mp hName).1

theorem mem_namesAt {l : List Nat} {name : String} :
    name ∈ h.namesAt l ↔ ∃ i ∈ l, h.nameAt? i = some name :=
  List.mem_filterMap

/-- Every class has one position. -/
theorem labelling : Reach.Labelling h.nameAt? h.positions where
  mem_iff _ := mem_positions
  distinct := nameAt?_inj

theorem mem_children {i j : Nat} :
    j ∈ h.children i ↔ ∃ l ∈ h.links, l.target = i ∧ l.source = j := by
  simp [children, and_assoc]

theorem mem_parents {i j : Nat} :
    j ∈ h.parents i ↔ ∃ l ∈ h.links, l.source = i ∧ l.target = j := by
  simp [parents, and_assoc]

/-- Names of the ends of a link. -/
theorem nameAt?_of_mem_links {l : Link} (hl : l ∈ h.links) :
    ∃ name parent, h.nameAt? l.source = some name ∧ h.nameAt? l.target = some parent ∧
      h.Linked name parent := by
  obtain ⟨hSource, hTarget⟩ := h.bounded l hl
  have hName := nameAt?_eq_some_iff.mpr ⟨hSource, rfl⟩
  have hParent := nameAt?_eq_some_iff.mpr ⟨hTarget, rfl⟩
  exact ⟨_, _, hName, hParent, l, hl, hName, hParent⟩

/-- Going from a position to its parents is going along the links. -/
theorem parents_follow : Reach.Follows h.nameAt? h.parents h.Linked where
  labels i j hParent := by
    obtain ⟨l, hl, rfl, rfl⟩ := mem_parents.mp hParent
    exact nameAt?_of_mem_links hl
  steps name parent hLinked := by
    obtain ⟨l, hl, hName, hParent⟩ := hLinked
    exact ⟨l.source, l.target, hName, hParent, mem_parents.mpr ⟨l, hl, rfl, rfl⟩⟩

/-- Going to the children is going against the links. -/
theorem children_follow : Reach.Follows h.nameAt? h.children (Function.swap h.Linked) where
  labels i j hChild := by
    obtain ⟨l, hl, rfl, rfl⟩ := mem_children.mp hChild
    obtain ⟨name, parent, hName, hParent, hLinked⟩ := nameAt?_of_mem_links hl
    exact ⟨parent, name, hParent, hName, hLinked⟩
  steps parent name hLinked := by
    obtain ⟨l, hl, hName, hParent⟩ := hLinked
    exact ⟨l.target, l.source, hParent, hName, mem_children.mpr ⟨l, hl, rfl, rfl⟩⟩

/-- The subclasses of a class are all others that inherit from it, along
links of both kinds. On a cycle the class itself is left out. -/
theorem mem_subclasses {name ancestor : String} :
    name ∈ h.subclasses ancestor ↔ name ≠ ancestor ∧ h.Inherits name ancestor := by
  unfold subclasses
  cases hFind : h.find? ancestor with
  | none =>
      refine iff_of_false List.not_mem_nil ?_
      rintro ⟨-, hInherits⟩
      obtain ⟨_, -, l, -, -, hAncestor⟩ := Relation.TransGen.tail'_iff.mp hInherits
      rw [find?_eq_some_iff.mpr hAncestor] at hFind
      cases hFind
  | some i =>
      have hAncestor := find?_eq_some_iff.mp hFind
      simp only [mem_namesAt, List.mem_filter, Bool.and_eq_true, bne_iff_ne, List.contains_iff_mem,
        children_follow.mem_collect_singleton labelling hAncestor]
      constructor
      · rintro ⟨j, ⟨-, hOther, name', hName', hPath⟩, hName⟩
        obtain rfl : name' = name := Option.some.inj (hName'.symm.trans hName)
        have hNe : name' ≠ ancestor := by
          rintro rfl
          exact hOther (nameAt?_inj hName hAncestor)
        rw [Relation.reflTransGen_swap, Relation.reflTransGen_iff_eq_or_transGen] at hPath
        exact ⟨hNe, hPath.resolve_left hNe.symm⟩
      · rintro ⟨hNe, hInherits⟩
        obtain ⟨_, ⟨l, -, hName, -⟩, -⟩ := Relation.TransGen.head'_iff.mp hInherits
        have hOther : l.source ≠ i := by
          intro hSame
          rw [hSame, hAncestor] at hName
          exact hNe (Option.some.inj hName).symm
        exact ⟨l.source, ⟨mem_positions.mpr ⟨name, hName⟩, hOther, name, hName,
          Relation.reflTransGen_swap.mpr hInherits.to_reflTransGen⟩, hName⟩

/-- A class names another as its interface. Nothing is said about whether
the other one is an interface. -/
def Implements (h : Hierarchy) (name parent : String) : Prop :=
  ∃ l ∈ h.links, l.kind = .interface ∧ h.nameAt? l.source = some name ∧
    h.nameAt? l.target = some parent

/-- A path that ends at a class with an interface starts at a class, be it
the same one. -/
theorem nameAt?_of_path {name ancestor parent : String}
    (hPath : Relation.ReflTransGen h.Linked name ancestor) (hEnd : h.Implements ancestor parent) :
    ∃ i, h.nameAt? i = some name := by
  cases hPath.cases_head with
  | inl hSame =>
      obtain ⟨l, _, _, hSource, _⟩ := hEnd
      exact ⟨l.source, hSame ▸ hSource⟩
  | inr hStep =>
      obtain ⟨_, ⟨l, _, hSource, _⟩, _⟩ := hStep
      exact ⟨l.source, hSource⟩

/-- The superinterfaces of a class are the interfaces of all that is above
it, itself included. -/
theorem mem_superinterfaces {name parent : String} :
    parent ∈ h.superinterfaces name ↔
      ∃ ancestor, Relation.ReflTransGen h.Linked name ancestor ∧ h.Implements ancestor parent := by
  unfold superinterfaces
  cases hFind : h.find? name with
  | none =>
      refine iff_of_false List.not_mem_nil ?_
      rintro ⟨ancestor, hPath, hEnd⟩
      obtain ⟨i, hName⟩ := nameAt?_of_path hPath hEnd
      rw [find?_eq_some_iff.mpr hName] at hFind
      cases hFind
  | some i =>
      have hName := find?_eq_some_iff.mp hFind
      simp only [mem_namesAt, List.mem_filter, Array.any_eq_true', Bool.and_eq_true, beq_iff_eq,
        List.contains_iff_mem, ancestry, parents_follow.mem_collect_singleton labelling hName]
      constructor
      · rintro ⟨j, ⟨-, l, hl, ⟨hKind, rfl⟩, ancestor, hSource, hPath⟩, hParent⟩
        exact ⟨ancestor, hPath, l, hl, hKind, hSource, hParent⟩
      · rintro ⟨ancestor, hPath, l, hl, hKind, hSource, hTarget⟩
        have hKnown := mem_positions.mpr ⟨parent, hTarget⟩
        exact ⟨l.target, ⟨hKnown, l, hl, ⟨hKind, rfl⟩, ancestor, hSource, hPath⟩, hTarget⟩

end JvmCalls.Hierarchy
