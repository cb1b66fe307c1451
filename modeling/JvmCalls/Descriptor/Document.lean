import JvmCalls.Descriptor.Basic
import JvmCalls.Settings.Document

/-!
Types as documents. A type without parts is its name, or a record from its
name to null. The others are records of one field, from the name of the type
to its parts.
-/
namespace JvmCalls

namespace JvmType

/-- The types without parts, by name. -/
def ofName? : String → Option JvmType
  | "Void" => some .void
  | "Boolean" => some .boolean
  | "Byte" => some .byte
  | "Short" => some .short
  | "Char" => some .char
  | "Int" => some .int
  | "Long" => some .long
  | "Float" => some .float
  | "Double" => some .double
  | _ => none

def ofDocument? : Document → Option JvmType
  | .text name => ofName? name
  | .record [(name, .null)] => ofName? name
  | .record [("Class", .text name)] => some (.object name)
  | .record [("Array", .list [dims, element])] => do
    let dims ← dims.count?
    let element ← ofDocument? element
    return .array dims element
  | _ => none

def toDocument : JvmType → Document
  | void => .text "Void"
  | boolean => .text "Boolean"
  | byte => .text "Byte"
  | short => .text "Short"
  | char => .text "Char"
  | int => .text "Int"
  | long => .text "Long"
  | float => .text "Float"
  | double => .text "Double"
  | array dims element => .record [("Array", .list [.int dims, element.toDocument])]
  | object name => .record [("Class", .text name)]

end JvmType

/-- Both fields are required, fields that are unknown are ignored. -/
def MethodDescriptor.ofDocument? (d : Document) : Option MethodDescriptor := do
  let fields ← d.fields? ["parameters", "return_type"]
  let .list parameters ← fields.lookup "parameters" | none
  let result ← fields.lookup "return_type"
  return ⟨← parameters.mapM JvmType.ofDocument?, ← JvmType.ofDocument? result⟩

end JvmCalls
