import JvmCalls.Text.Quoted
import JvmCalls.Binary.Shortest

/-!
Entries of a constant pool. Entries refer to each other by index. Numbers
are kept as their stored bits, and two entries are shared when they are
equal as values, which for floating-point entries is number equality and not
equality of bits.
-/
namespace JvmCalls

/-- Position of an entry in a constant pool. The first one is 1. -/
abbrev PoolIndex := UInt16

/-- The kinds of entries, as errors name them. -/
inductive ConstantKind where
  | utf8 | integer | float | long | double | classRef | string
  | fieldRef | methodRef | interfaceMethodRef | nameAndType
  | methodHandle | methodType | invokeDynamic
deriving DecidableEq, Repr

def ConstantKind.label : ConstantKind → String
  | utf8 => "Utf8"
  | integer => "Integer"
  | float => "Float"
  | long => "Long"
  | double => "Double"
  | classRef => "Class"
  | string => "String"
  | fieldRef => "Fieldref"
  | methodRef => "Methodref"
  | interfaceMethodRef => "InterfaceMethodref"
  | nameAndType => "NameAndType"
  | methodHandle => "MethodHandle"
  | methodType => "MethodType"
  | invokeDynamic => "InvokeDynamic"

/-- An entry of a constant pool. What it consists of are other entries, by
their indices. -/
inductive Constant where
  | utf8 (text : String)
  | integer (value : Int32)
  | float (value : Single)
  | long (value : Int64)
  | double (value : Double)
  | classRef (name : PoolIndex)
  | string (text : PoolIndex)
  | fieldRef (owner nameAndType : PoolIndex)
  | methodRef (owner nameAndType : PoolIndex)
  | interfaceMethodRef (owner nameAndType : PoolIndex)
  | nameAndType (name descriptor : PoolIndex)
  | methodHandle (kind : UInt8) (reference : PoolIndex)
  | methodType (descriptor : PoolIndex)
  | invokeDynamic (bootstrap : UInt16) (nameAndType : PoolIndex)
deriving DecidableEq, Repr, Inhabited

namespace Constant

def kind : Constant → ConstantKind
  | utf8 _ => .utf8
  | integer _ => .integer
  | float _ => .float
  | long _ => .long
  | double _ => .double
  | classRef _ => .classRef
  | string _ => .string
  | fieldRef _ _ => .fieldRef
  | methodRef _ _ => .methodRef
  | interfaceMethodRef _ _ => .interfaceMethodRef
  | nameAndType _ _ => .nameAndType
  | methodHandle _ _ => .methodHandle
  | methodType _ => .methodType
  | invokeDynamic _ _ => .invokeDynamic

/-- Number of indices an entry takes: two for the 64-bit numbers. -/
def width : Constant → Nat
  | long _ => 2
  | double _ => 2
  | _ => 1

/-- Equality of entries as values. Floating-point entries are compared as
numbers, so the two zeros are the same entry and a pattern without number is
never shared. -/
def same : Constant → Constant → Bool
  | float a, float b => a.numberEq b
  | double a, double b => a.numberEq b
  | a, b => a == b

/-- What stands between the parentheses of the written entry. -/
def body : Constant → String
  | utf8 text => Text.quoted text
  | integer i => toString i.toInt
  | float x => x.render
  | long i => toString i.toInt
  | double x => x.render
  | classRef i => ref i
  | string i => ref i
  | methodType i => ref i
  | fieldRef owner nat => ref owner ++ ", " ++ ref nat
  | methodRef owner nat => ref owner ++ ", " ++ ref nat
  | interfaceMethodRef owner nat => ref owner ++ ", " ++ ref nat
  | nameAndType name descriptor => ref name ++ ", " ++ ref descriptor
  | methodHandle kind reference => toString kind ++ ", " ++ ref reference
  | invokeDynamic bootstrap nat => "bsm " ++ toString bootstrap ++ ", " ++ ref nat
where
  ref (i : PoolIndex) : String := "#" ++ toString i

/-- The entry as listings show it, with the indices of other entries and not
what they hold. -/
def render (c : Constant) : String :=
  c.kind.label ++ "(" ++ c.body ++ ")"

end Constant

end JvmCalls
