import JvmCalls.ClassFile.Address

/-!
Method signatures and positions in methods. Any part of a signature may be
unknown, when the class file does not settle it. Signatures are ordered part
by part, and an unknown part comes before every known one.
-/
namespace JvmCalls

/-- A method by class, name and descriptor. It need not exist, and parts of
it may be missing. -/
structure MethodSignature where
  owner : Option String
  name : Option String
  descriptor : Option String
deriving DecidableEq, Repr, Inhabited, Hashable

/-- The order of an optional key: its absence comes first. -/
def compareOption {α : Type} (cmp : α → α → Ordering) : Option α → Option α → Ordering
  | none, none => .eq
  | none, some _ => .lt
  | some _, none => .gt
  | some a, some b => cmp a b

namespace MethodSignature

/-- All three parts are known. -/
def of (owner name descriptor : String) : MethodSignature :=
  ⟨some owner, some name, some descriptor⟩

/-- Nothing is known. -/
def unknown : MethodSignature := ⟨none, none, none⟩

/-- Nothing is unknown, so that the method can be looked up. -/
def isComplete (s : MethodSignature) : Bool :=
  s.owner.isSome && s.name.isSome && s.descriptor.isSome

def withOwner (s : MethodSignature) (owner : String) : MethodSignature :=
  { s with owner := some owner }

def render (s : MethodSignature) : String :=
  s.owner.getD "?" ++ "." ++ s.name.getD "?" ++ s.descriptor.getD "(?)"

def compare (a b : MethodSignature) : Ordering :=
  (compareOption Ord.compare a.owner b.owner).then
    ((compareOption Ord.compare a.name b.name).then
      (compareOption Ord.compare a.descriptor b.descriptor))

instance : Ord MethodSignature := ⟨compare⟩

def le (a b : MethodSignature) : Bool := (compare a b).isLE

end MethodSignature

/-- The position of an instruction in a method, with its source line if that
is known. -/
structure CodeLocation where
  signature : MethodSignature
  address : Address
  line : Option UInt16
deriving DecidableEq, Repr, Inhabited

namespace CodeLocation

def render (l : CodeLocation) : String :=
  l.signature.render ++ "@" ++ toString l.address ++
    match l.line with
    | some line => " (line " ++ toString line ++ ")"
    | none => ""

def compare (a b : CodeLocation) : Ordering :=
  (MethodSignature.compare a.signature b.signature).then
    ((Ord.compare a.address b.address).then
      (compareOption Ord.compare a.line b.line))

def le (a b : CodeLocation) : Bool := (compare a b).isLE

end CodeLocation

end JvmCalls
