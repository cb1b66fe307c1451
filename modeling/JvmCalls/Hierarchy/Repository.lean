import JvmCalls.Hierarchy.Basic
import JvmCalls.Journal.Basic

/-!
The repository of an analysed program. Classes are registered one by one,
and what they refer to is declared along the way. Closing the repository
links every class without ancestors to the root. Both may be done in any
order, and repeatedly.
-/
namespace JvmCalls

structure Repository where
  hierarchy : Hierarchy := .empty
  /-- Number of classes created so far. The next one has the next number as its uid. -/
  classCount : Nat := 0
  methodCount : Nat := 0
deriving Inhabited

namespace Repository

def nodes (r : Repository) : List ClassNode := r.hierarchy.nodes.toList

def definedNodes (r : Repository) : List ClassNode := r.nodes.filter ClassNode.isDefined

/-- Names of the placeholders. -/
def missing (r : Repository) : List String :=
  (r.nodes.filter fun n => !n.isDefined).map ClassNode.name

/-- The definition of a class. A placeholder has none. -/
def definition? (r : Repository) (name : String) : Option ClassFile :=
  (r.hierarchy.node? name).bind ClassNode.content

def isDefined (r : Repository) (name : String) : Bool := (r.definition? name).isSome

def findMethod? (r : Repository) (owner name descriptor : String) : Option MethodInfo :=
  (r.definition? owner).bind fun c => c.findMethod? name descriptor

/-- Creates a placeholder unless the class is known. -/
def declare (r : Repository) (name : String) : Except HierarchyError Repository :=
  if r.hierarchy.contains name then .ok r
  else do
    let uid := r.classCount + 1
    let hierarchy ← r.hierarchy.insert (.placeholder uid name)
    return { r with hierarchy, classCount := uid }

/-- Links a class to an ancestor, which is declared first. -/
def inherit (r : Repository) (name ancestor : String) (kind : Inheritance) :
    Except HierarchyError Repository := do
  let r ← r.declare ancestor
  let hierarchy ← r.hierarchy.link name ancestor kind
  return { r with hierarchy }

/-- Gives a class its definition. A placeholder keeps its position and
uid. -/
def define (r : Repository) (content : ClassFile) (library : Bool) :
    Except HierarchyError Repository :=
  let methodCount := r.methodCount + content.methods.length
  match r.hierarchy.node? content.name with
  | some known => do
    let hierarchy ← r.hierarchy.update (.define known.uid content library)
    return { r with hierarchy, methodCount }
  | none => do
    let uid := r.classCount + 1
    let hierarchy ← r.hierarchy.insert (.define uid content library)
    return { hierarchy, classCount := uid, methodCount }

/-- Defines a class and links it to its superclass, then to its
interfaces. -/
def add (r : Repository) (content : ClassFile) (library : Bool) :
    Except HierarchyError Repository := do
  let r ← r.define content library
  let r ← match content.superclass with
    | some superclass => r.inherit content.name superclass .superclass
    | none => pure r
  content.interfaces.foldlM (fun r interface => r.inherit content.name interface .interface) r

/-- How a class is named in log messages of its registration. -/
def registrationText (content : ClassFile) (library : Bool) : String :=
  "'" ++ content.name ++ "'" ++ (if library then " (LIB)" else "")

/-- Registers a class. A second definition of a name is ignored. -/
def register (r : Repository) (content : ClassFile) (library : Bool) :
    Traced (Except HierarchyError Repository) := do
  let text := registrationText content library
  Traced.log .trace ("pushing " ++ text ++ " in repository")
  if r.isDefined content.name then
    Traced.log .warn ("class " ++ text ++ " has already been pushed in repository")
    return .ok r
  else return r.add content library

/-- Registers classes in order, up to the first that fails. -/
def registerAll (r : Repository) (contents : List ClassFile) (library : Bool) :
    Traced (Except HierarchyError Repository) :=
  match contents with
  | [] => return .ok r
  | content :: rest => do
    match ← r.register content library with
    | .ok r => r.registerAll rest library
    | .error e => return .error e

/-- Links the named classes to the root. -/
def adopt (r : Repository) (names : List String) : Traced (Except HierarchyError Repository) :=
  match names with
  | [] => return .ok r
  | name :: rest => do
    Traced.log .warn ("add missing java.lang.Object inheritance to " ++ name)
    match r.hierarchy.link name objectName .superclass with
    | .ok hierarchy => adopt { r with hierarchy } rest
    | .error e => return .error e

/-- Links every class without ancestors to the root, which is declared if it
is not known. -/
def close (r : Repository) : Traced (Except HierarchyError Repository) :=
  match r.declare objectName with
  | .ok r => r.adopt r.hierarchy.orphans
  | .error e => return .error e

def superclass? (r : Repository) (name : String) : Option String := r.hierarchy.superclass? name
def interfaces (r : Repository) (name : String) : List String := r.hierarchy.interfaces name
def subclasses (r : Repository) (name : String) : List String := r.hierarchy.subclasses name
def superinterfaces (r : Repository) (name : String) : List String :=
  r.hierarchy.superinterfaces name

/-- A class and its successive superclasses, up to the first repetition. -/
def lineage (r : Repository) (name : String) : List String :=
  match r.hierarchy.find? name with
  | some i => r.hierarchy.namesAt (r.hierarchy.lineage i).visited
  | none => []

/-- Whether `ancestor` is among the superclasses of a class, itself left out
unless its superclasses lead back to it. The search ends with a
warning where they repeat. -/
def isSubclassOf (r : Repository) (name ancestor : String) : Traced Bool := do
  let h := r.hierarchy
  match (h.find? name).bind h.superOf? with
  | none => return false
  | some i =>
    let chain := h.lineage i
    if (h.namesAt chain.visited).contains ancestor then return true
    match chain.repeated.bind h.nameAt? with
    | some repeated =>
      Traced.log .warn ("cyclic inheritance detected at " ++ repeated)
      return false
    | none => return false

end Repository

end JvmCalls
