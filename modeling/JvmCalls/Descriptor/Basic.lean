import JvmCalls.ClassFile.Error

/-!
Type and method descriptors: the types that a class file can name, and the
compact text that names them. Not every type has a text that reads back as
itself. An array of arrays, an array without dimensions and a class name
with a semicolon can be built but are written like other types.
-/
namespace JvmCalls

inductive JvmType where
  /-- No value. It is a type of results only. -/
  | void
  | boolean | byte | short | char | int | long | float | double
  /-- An array of `dims` dimensions over the element type. -/
  | array (dims : Nat) (element : JvmType)
  /-- A class by its internal name, with slashes between packages. -/
  | object (name : String)
deriving DecidableEq, Repr, Inhabited

namespace JvmType

/-- The characters of the descriptor. -/
def chars : JvmType → List Char
  | void => ['V']
  | boolean => ['Z']
  | byte => ['B']
  | short => ['S']
  | char => ['C']
  | int => ['I']
  | long => ['J']
  | float => ['F']
  | double => ['D']
  | array dims element => List.replicate dims '[' ++ element.chars
  | object name => 'L' :: name.toList ++ [';']

def render (t : JvmType) : String := String.ofList t.chars

/-- The spelling of source programs, with dots between packages. -/
def sourceName : JvmType → String
  | void => "void"
  | boolean => "boolean"
  | byte => "byte"
  | short => "short"
  | char => "char"
  | int => "int"
  | long => "long"
  | float => "float"
  | double => "double"
  | array dims element => element.sourceName ++ String.join (List.replicate dims "[]")
  | object name => String.ofList (name.toList.map fun c => if c = '/' then '.' else c)

/-- Values of these types take two slots of an operand stack. -/
def isCategory2 : JvmType → Bool
  | long => true
  | double => true
  | _ => false

def isReference : JvmType → Bool
  | array _ _ => true
  | object _ => true
  | _ => false

/-- Number of operand stack slots that a value takes. -/
def slots : JvmType → Nat
  | void => 0
  | long => 2
  | double => 2
  | _ => 1

/-- Number of operand stack slots that several values take together. -/
def slotsOf : List JvmType → Nat
  | [] => 0
  | t :: rest => t.slots + slotsOf rest

/-- The name of a class type. Arrays have none. -/
def className (t : JvmType) : Except ClassFileError String :=
  match t with
  | object name => .ok name
  | _ => .error (.invalidDescriptor (t.render ++ " is not a class type"))

end JvmType

/-- Parameters and result of a method. -/
structure MethodDescriptor where
  parameters : List JvmType
  result : JvmType
deriving DecidableEq, Repr, Inhabited

namespace MethodDescriptor

def chars (d : MethodDescriptor) : List Char :=
  '(' :: d.parameters.flatMap JvmType.chars ++ ')' :: d.result.chars

def render (d : MethodDescriptor) : String := String.ofList d.chars

def isVoid (d : MethodDescriptor) : Bool := d.result == .void

/-- Stack slots of the declared parameters. A receiver is not among them. -/
def parameterSlots (d : MethodDescriptor) : Nat :=
  JvmType.slotsOf d.parameters

end MethodDescriptor

end JvmCalls
