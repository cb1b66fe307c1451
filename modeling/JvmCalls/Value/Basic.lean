import JvmCalls.Text.Quoted
import JvmCalls.Binary.Shortest

/-!
Abstract values of an operand stack: what an evaluation knows about a value.
A number may be known exactly, a reference has a type, a nullness and
perhaps a constant, and a value may have several possible types.
-/
namespace JvmCalls

/-- What is known about a reference being null. -/
inductive Nullness where
  | never | maybe | always
deriving DecidableEq, Repr, Inhabited

def Nullness.all : List Nullness := [never, maybe, always]

def Nullness.render : Nullness → String
  | never => "non-null"
  | maybe => "maybe-null"
  | always => "null"

/-- A number, with its exact value if that is known. -/
inductive Primitive where
  | int (value : Option Int32)
  | long (value : Option Int64)
  | float (value : Option Single)
  | double (value : Option Double)
deriving DecidableEq, Repr, Inhabited

namespace Primitive

/-- The number takes two slots. -/
def isCategory2 : Primitive → Bool
  | long _ => true
  | double _ => true
  | _ => false

def isParticular : Primitive → Bool
  | int v => v.isSome
  | long v => v.isSome
  | float v => v.isSome
  | double v => v.isSome

def render : Primitive → String
  | int v => "int" ++ known (v.map fun i => toString i.toInt)
  | long v => "long" ++ known (v.map fun i => toString i.toInt)
  | float v => "float" ++ known (v.map Single.render)
  | double v => "double" ++ known (v.map Double.render)
where
  known : Option String → String
    | some text => ":" ++ text
    | none => ""

/-- Equality as values: floating-point numbers are compared as numbers. -/
def same : Primitive → Primitive → Bool
  | float (some a), float (some b) => a.numberEq b
  | double (some a), double (some b) => a.numberEq b
  | a, b => a == b

end Primitive

/-- A reference. With `mayExtend` its runtime type may be a subtype of
`typeName`. -/
structure Reference where
  typeName : Option String := none
  nullness : Nullness := .maybe
  mayExtend : Bool := false
  constant : Option String := none
deriving DecidableEq, Repr, Inhabited

namespace Reference

/-- Never null, and of exactly this type. -/
def exact (typeName : String) : Reference := ⟨some typeName, .never, false, none⟩

/-- Of this type or a subtype, or null. -/
def extensible (typeName : String) : Reference := ⟨some typeName, .maybe, true, none⟩

def null : Reference := ⟨none, .always, false, none⟩

def withNullness (r : Reference) (nullness : Nullness) : Reference := { r with nullness }

def withConstant (r : Reference) (constant : String) : Reference :=
  { r with constant := some constant }

def render (r : Reference) : String :=
  r.typeName.getD "?" ++ (if r.mayExtend then "+" else "") ++ " (" ++ r.nullness.render ++ ")" ++
    match r.constant with
    | some constant => " " ++ Text.quoted constant
    | none => ""

end Reference

inductive Value where
  /-- Nothing is known, or the lower slot of a number that takes two. -/
  | top
  | primitive (value : Primitive)
  | reference (value : Reference)
  /-- One of several references. -/
  | multiType (values : List Reference)
deriving DecidableEq, Repr, Inhabited

namespace Value

def render : Value → String
  | top => "T"
  | primitive p => p.render
  | reference r => r.render
  | multiType rs => "\x7b" ++ ", ".intercalate (rs.map Reference.render) ++ "\x7d"

/-- The runtime value is known exactly. -/
def isParticular : Value → Bool
  | top => false
  | primitive p => p.isParticular
  | reference r => r.constant.isSome || r.nullness == .always
  | multiType _ => false

def isCategory2 : Value → Bool
  | primitive p => p.isCategory2
  | _ => false

/-- Number of types that the value may have. -/
def typeCount : Value → Nat
  | top => 0
  | primitive _ => 1
  | reference _ => 1
  | multiType rs => rs.length

/-- The references that the value may be. -/
def references : Value → List Reference
  | reference r => [r]
  | multiType rs => rs
  | _ => []

/-- Equality as values: floating-point numbers are compared as numbers. -/
def same : Value → Value → Bool
  | primitive a, primitive b => a.same b
  | a, b => a == b

/-- The common nullness of all references that the value may be. -/
def nullness (v : Value) : Nullness :=
  if v.references = [] then .maybe
  else if v.references.all (·.nullness == .always) then .always
  else if v.references.all (·.nullness == .never) then .never
  else .maybe

end Value

end JvmCalls
