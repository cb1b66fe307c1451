import JvmCalls.ClassFile.Address
import JvmCalls.ClassFile.Constant

/-! What can be wrong with the parts of a class file. -/
namespace JvmCalls

/-- What is wrong, and where. Each error has the index, address, label or
text that it is about. -/
inductive ClassFileError where
  /-- The text is not a type or method descriptor. -/
  | invalidDescriptor (text : String)
  /-- The index is zero, out of the pool, or the second half of a wide entry. -/
  | constantNotFound (index : PoolIndex)
  | unexpectedConstant (index : PoolIndex) (expected : ConstantKind)
  | constantPoolOverflow
  | instructionNotFound (address : Address)
  /-- The label was never created or never placed, or is placed a second time. -/
  | undefinedLabel (label : Label)
  /-- The target is too far away for the 16 bits of a branch. -/
  | branchOutOfRange (source : Address)
deriving DecidableEq, Repr

/-- The text of an error, which is shown in logs. -/
def ClassFileError.message : ClassFileError → String
  | invalidDescriptor text => "invalid descriptor: " ++ text
  | constantNotFound index => "constant not found in pool (index: " ++ toString index ++ ")"
  | unexpectedConstant index expected =>
    "constant #" ++ toString index ++ " is not a " ++ expected.label
  | constantPoolOverflow => "constant pool is full"
  | instructionNotFound address => "instruction not found (address: " ++ toString address ++ ")"
  | undefinedLabel label => "undefined label: " ++ toString label
  | branchOutOfRange source => "branch offset out of range at " ++ toString source

end JvmCalls
