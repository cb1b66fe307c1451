import JvmCalls.Assembly.Code

/-! Assembling a class: flags, ancestors, constants and methods in any
order. -/
namespace JvmCalls

namespace ClassFile

/-- A public class below the root of the hierarchy, without members. -/
def ofName (name : String) : ClassFile :=
  { flags := ClassFlags.ofList [.accPublic, .accSuper]
    name
    superclass := some objectName
    interfaces := []
    constants := {}
    methods := [] }

/-- A public interface without members. -/
def interfaceOfName (name : String) : ClassFile :=
  { ofName name with flags := ClassFlags.ofList [.accPublic, .accInterface, .accAbstract] }

def implements (c : ClassFile) (interface : String) : ClassFile :=
  { c with interfaces := c.interfaces ++ [interface] }

/-- Declares a method without code. Its descriptor is taken as it is. -/
def declare (c : ClassFile) (flags : MethodFlags) (name descriptor : String) : ClassFile :=
  { c with methods := c.methods ++ [⟨flags, name, descriptor, none⟩] }

/-- Adds a constant to the pool of the class. -/
def addConstant (c : ClassFile) (constant : Constant) : Except ClassFileError ClassFile :=
  match ConstantPool.push constant c.constants with
  | (.ok _, constants) => .ok { c with constants }
  | (.error e, _) => .error e

/-- Declares a method whose code is assembled by `body`, which also yields a
result of its own. The descriptor is read before any code is assembled. -/
def define {α : Type} (c : ClassFile) (flags : MethodFlags) (name descriptor : String)
    (body : Assembler α) : Except ClassFileError (α × ClassFile) := do
  let _ ← MethodDescriptor.ofString descriptor
  let (result, builder) := body { pool := c.constants }
  let result ← result
  let code ← builder.build
  return (result,
    { c with
      constants := builder.pool
      methods := c.methods ++ [⟨flags, name, descriptor, some code⟩] })

end ClassFile

end JvmCalls
