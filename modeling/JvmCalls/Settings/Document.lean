/-!
Documents: trees of plain data, from which settings and types are read.
Readers are strict about kinds. A text is never taken for a number, nor a
number for a flag.
-/
namespace JvmCalls

inductive Document where
  | null
  | flag (value : Bool)
  | int (value : Int)
  /-- A number with a fraction. No reader takes one. -/
  | fraction
  | text (value : String)
  | list (items : List Document)
  | record (fields : List (String × Document))
deriving Inhabited

namespace Document

/-- What is absent is written as null. -/
def ofOption {α : Type} (write : α → Document) : Option α → Document
  | some a => write a
  | none => null

/-- A count that fits into one machine word. -/
def count? : Document → Option Nat
  | int n => if 0 ≤ n ∧ n < (1 <<< 64 : Nat) then some n.toNat else none
  | _ => none

/-- The fields of a structure whose fields have the given names: a record,
or the list of their values in order, of which the last may be left out. -/
def fields? (names : List String) : Document → Option (List (String × Document))
  | record fields => some fields
  | list values => if values.length ≤ names.length then some (names.zip values) else none
  | _ => none

/-- A field that is a flag, or its default where the field is absent. -/
def flagField? (fields : List (String × Document)) (key : String) (default : Bool) : Option Bool :=
  match fields.lookup key with
  | none => some default
  | some (flag value) => some value
  | some _ => none

/-- A field that is a count or null. Its absence means null. -/
def countField? (fields : List (String × Document)) (key : String) : Option (Option Nat) :=
  match fields.lookup key with
  | none => some none
  | some null => some none
  | some document => document.count?.map some

end Document

end JvmCalls
