import JvmCalls.ClassFile.Basic
import JvmCalls.Reach

/-!
The class hierarchy: classes in the order of their creation, and the links
from each class to its superclass and interfaces in the order of their
insertion. A class that is only referred to is a placeholder without
definition. Nothing keeps a hierarchy from being cyclic.
-/
namespace JvmCalls

/-- The two ways in which a class is linked to another one. -/
inductive Inheritance where
  | superclass | interface
deriving DecidableEq, Repr, Inhabited

def Inheritance.all : List Inheritance := [.superclass, .interface]

def Inheritance.render : Inheritance → String
  | .superclass => "<extends>"
  | .interface => "<implements>"

/-- A class of the hierarchy. `library` tells classes of dependencies from
those of the program itself. -/
structure ClassNode where
  uid : Nat
  name : String
  content : Option ClassFile
  library : Bool
deriving Inhabited

namespace ClassNode

/-- A class with its definition, by the name that the class file has. -/
def define (uid : Nat) (content : ClassFile) (library : Bool) : ClassNode :=
  ⟨uid, content.name, some content, library⟩

/-- A class that was only referred to. It counts as one of the program. -/
def placeholder (uid : Nat) (name : String) : ClassNode := ⟨uid, name, none, false⟩

def isDefined (n : ClassNode) : Bool := n.content.isSome

/-- A placeholder is no interface. -/
def isInterface (n : ClassNode) : Bool := n.content.any ClassFile.isInterface

def isSuper (n : ClassNode) : Bool := n.content.any ClassFile.isSuper

/-- The methods that a class itself declares. Nothing is known of those of a
placeholder. -/
def methods (n : ClassNode) : List MethodInfo :=
  match n.content with
  | some content => content.methods
  | none => []

def findMethod? (n : ClassNode) (name descriptor : String) : Option MethodInfo :=
  n.content.bind fun content => content.findMethod? name descriptor

/-- Nodes are known and ordered by their number. -/
def compare (a b : ClassNode) : Ordering := Ord.compare a.uid b.uid

end ClassNode

/-- A link between two classes, by their positions. -/
structure Link where
  source : Nat
  target : Nat
  kind : Inheritance
deriving DecidableEq, Repr, Inhabited

/-- Classes and the links between them. Names tell classes apart, and no
link leads out of the hierarchy. -/
structure Hierarchy where
  nodes : Array ClassNode
  links : Array Link
  /-- No two classes have the same name. -/
  distinct : (nodes.toList.map ClassNode.name).Nodup
  /-- Both ends of a link are classes of the hierarchy. -/
  bounded : ∀ l ∈ links, l.source < nodes.size ∧ l.target < nodes.size

def Hierarchy.empty : Hierarchy where
  nodes := #[]
  links := #[]
  distinct := List.nodup_nil
  bounded := fun l hl => absurd hl (Array.not_mem_empty l)

instance : Inhabited Hierarchy := ⟨.empty⟩

/-- Why a class cannot be added, replaced or linked. -/
inductive HierarchyError where
  | duplicateClass
  | classNotFound (name : String)
deriving DecidableEq, Repr

def HierarchyError.message : HierarchyError → String
  | duplicateClass => "internal error: duplicate object in hierarchy graph"
  | classNotFound name => "class not found: " ++ name

namespace Hierarchy

/-- The position of a class, which it keeps for ever. -/
def find? (h : Hierarchy) (name : String) : Option Nat :=
  h.nodes.findIdx? fun n => n.name == name

def contains (h : Hierarchy) (name : String) : Bool := (h.find? name).isSome

def node? (h : Hierarchy) (name : String) : Option ClassNode :=
  (h.find? name).bind fun i => h.nodes[i]?

def nameAt? (h : Hierarchy) (i : Nat) : Option String := h.nodes[i]?.map ClassNode.name

theorem nameAt?_eq_some_iff {h : Hierarchy} {i : Nat} {name : String} :
    h.nameAt? i = some name ↔ ∃ hi : i < h.nodes.size, h.nodes[i].name = name := by
  by_cases hi : i < h.nodes.size <;> simp [nameAt?, hi]

/-- A name is at one position, as no two classes have the same name. -/
theorem nameAt?_inj {h : Hierarchy} {i j : Nat} {name : String} (hi : h.nameAt? i = some name)
    (hj : h.nameAt? j = some name) : i = j := by
  obtain ⟨hi, hNameI⟩ := nameAt?_eq_some_iff.mp hi
  obtain ⟨hj, hNameJ⟩ := nameAt?_eq_some_iff.mp hj
  have hNames := List.pairwise_iff_getElem.mp h.distinct
  simp only [List.length_map, Array.length_toList, List.getElem_map, Array.getElem_toList] at hNames
  rcases Nat.lt_trichotomy i j with hLt | hEq | hLt
  · exact False.elim (hNames i j hi hj hLt (hNameI.trans hNameJ.symm))
  · exact hEq
  · exact False.elim (hNames j i hj hi hLt (hNameJ.trans hNameI.symm))

/-- Looking a class up finds the only position that has its name. -/
theorem find?_eq_some_iff {h : Hierarchy} {i : Nat} {name : String} :
    h.find? name = some i ↔ h.nameAt? i = some name := by
  constructor
  · intro hFind
    obtain ⟨hi, hName, -⟩ := Array.findIdx?_eq_some_iff_getElem.mp hFind
    exact nameAt?_eq_some_iff.mpr ⟨hi, by simpa using hName⟩
  · intro hAt
    obtain ⟨hi, hName⟩ := nameAt?_eq_some_iff.mp hAt
    cases hFind : h.find? name with
    | none =>
        have hNone := Array.findIdx?_eq_none_iff.mp hFind h.nodes[i] (Array.getElem_mem hi)
        exact False.elim (by simp [hName] at hNone)
    | some j =>
        obtain ⟨hj, hNameJ, -⟩ := Array.findIdx?_eq_some_iff_getElem.mp hFind
        have hAtJ : h.nameAt? j = some name := nameAt?_eq_some_iff.mpr ⟨hj, by simpa using hNameJ⟩
        rw [nameAt?_inj hAtJ hAt]

theorem find?_eq_none_iff {h : Hierarchy} {name : String} :
    h.find? name = none ↔ name ∉ h.nodes.toList.map ClassNode.name := by
  simp [find?, Array.findIdx?_eq_none_iff]

theorem lt_of_find? {h : Hierarchy} {i : Nat} {name : String} (hFind : h.find? name = some i) :
    i < h.nodes.size :=
  (nameAt?_eq_some_iff.mp (find?_eq_some_iff.mp hFind)).1

theorem distinct_push {h : Hierarchy} {n : ClassNode} (hNew : ¬ h.contains n.name) :
    ((h.nodes.push n).toList.map ClassNode.name).Nodup := by
  have hAbsent := find?_eq_none_iff.mp (by simpa [contains] using hNew)
  rw [Array.toList_push, List.map_append, List.nodup_append]
  refine ⟨h.distinct, by simp, ?_⟩
  intro a ha b hb hEqual
  rw [List.map_singleton, List.mem_singleton] at hb
  exact hAbsent (hb ▸ hEqual ▸ ha)

/-- A class may be replaced by another of its name. -/
theorem names_set {h : Hierarchy} {n : ClassNode} {i : Nat} (hFind : h.find? n.name = some i) :
    (h.nodes.setIfInBounds i n).toList.map ClassNode.name =
      h.nodes.toList.map ClassNode.name := by
  obtain ⟨hi, hName⟩ := nameAt?_eq_some_iff.mp (find?_eq_some_iff.mp hFind)
  have hLength : i < (h.nodes.toList.map ClassNode.name).length := by simpa using hi
  have hAt : (h.nodes.toList.map ClassNode.name)[i] = n.name := by simpa using hName
  rw [Array.toList_setIfInBounds, List.map_set, ← hAt, List.set_getElem_self]

/-- Adds a class at the end. A name that is there already is refused, so
that the names stay distinct. -/
def insert (h : Hierarchy) (n : ClassNode) : Except HierarchyError Hierarchy :=
  if hKnown : h.contains n.name then .error .duplicateClass
  else .ok { h with
    nodes := h.nodes.push n
    distinct := distinct_push hKnown
    bounded := fun l hl => by have hLink := h.bounded l hl; rw [Array.size_push]; omega }

/-- Replaces the class of the same name. It keeps its position, so that all
links stay. -/
def update (h : Hierarchy) (n : ClassNode) : Except HierarchyError Hierarchy :=
  match hFind : h.find? n.name with
  | some i => .ok { h with
      nodes := h.nodes.setIfInBounds i n
      distinct := names_set hFind ▸ h.distinct
      bounded := fun l hl => by rw [Array.size_setIfInBounds]; exact h.bounded l hl }
  | none => .error (.classNotFound n.name)

theorem bounded_push {h : Hierarchy} {i j : Nat} (hi : i < h.nodes.size) (hj : j < h.nodes.size)
    (kind : Inheritance) :
    ∀ l ∈ h.links.push ⟨i, j, kind⟩, l.source < h.nodes.size ∧ l.target < h.nodes.size := by
  intro l hl
  rcases Array.mem_push.mp hl with hOld | hNew
  · exact h.bounded l hOld
  · rw [hNew]
    exact ⟨hi, hj⟩

/-- Adds a link between classes that are there. The same link may be added
again. -/
def link (h : Hierarchy) (source target : String) (kind : Inheritance) :
    Except HierarchyError Hierarchy :=
  match hSource : h.find? source with
  | none => .error (.classNotFound source)
  | some i =>
    match hTarget : h.find? target with
    | none => .error (.classNotFound target)
    | some j => .ok { h with
        links := h.links.push ⟨i, j, kind⟩
        bounded := bounded_push (lt_of_find? hSource) (lt_of_find? hTarget) kind }

/-- The classes that a class is linked to, in the order of insertion. -/
def parents (h : Hierarchy) (i : Nat) : List Nat :=
  (h.links.toList.filter fun l => l.source == i).map Link.target

/-- The classes that are linked to a class. -/
def children (h : Hierarchy) (i : Nat) : List Nat :=
  (h.links.toList.filter fun l => l.target == i).map Link.source

def parentsBy (h : Hierarchy) (kind : Inheritance) (i : Nat) : List Nat :=
  (h.links.toList.filter fun l => l.source == i && l.kind == kind).map Link.target

/-- The superclass is the one that was linked first. There are others where
a class was linked to the root before it was defined. -/
def superOf? (h : Hierarchy) (i : Nat) : Option Nat := (h.parentsBy .superclass i).head?

def positions (h : Hierarchy) : List Nat := List.range h.nodes.size

def namesAt (h : Hierarchy) (l : List Nat) : List String := l.filterMap h.nameAt?

/-- Classes without superclass and interfaces, the root apart. -/
def orphans (h : Hierarchy) : List String :=
  h.namesAt (h.positions.filter fun i => (h.parents i).isEmpty)
    |>.filter fun name => name != objectName

/-- The superclass by name. A class that is not known has none. -/
def superclass? (h : Hierarchy) (name : String) : Option String :=
  ((h.find? name).bind h.superOf?).bind h.nameAt?

/-- The interfaces that a class declares, in order. -/
def interfaces (h : Hierarchy) (name : String) : List String :=
  match h.find? name with
  | some i => h.namesAt (h.parentsBy .interface i)
  | none => []

/-- Everything above and including a class, over links of both kinds. -/
def ancestry (h : Hierarchy) (i : Nat) : List Nat := Reach.collect h.parents h.positions [i]

/-- The interfaces of a class, of its ancestors and of their interfaces, in
the order of their creation. -/
def superinterfaces (h : Hierarchy) (name : String) : List String :=
  match h.find? name with
  | some i =>
    let above := h.ancestry i
    let isSuperinterface j := h.links.any fun l =>
      l.kind == .interface && l.target == j && above.contains l.source
    h.namesAt (h.positions.filter isSuperinterface)
  | none => []

/-- Everything that inherits from a class, itself left out, in the order of
creation. -/
def subclasses (h : Hierarchy) (name : String) : List String :=
  match h.find? name with
  | some i =>
    let below := Reach.collect h.children h.positions [i]
    h.namesAt (h.positions.filter fun j => j != i && below.contains j)
  | none => []

/-- A class and its successive superclasses, up to the first repetition. -/
def lineage (h : Hierarchy) (i : Nat) : Reach.Chain Nat :=
  Reach.chain h.superOf? h.positions i

end Hierarchy

end JvmCalls
