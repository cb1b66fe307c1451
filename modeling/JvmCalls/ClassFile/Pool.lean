import Std.Data.HashMap
import JvmCalls.ClassFile.Error
import JvmCalls.Descriptor.Parser

/-!
The constant pool of a class. The pool only grows: an entry that is already
there is shared and not stored again, and an index once handed out keeps its
meaning. A push that fails may have added the entries it built on, so every
operation yields the pool it leaves behind, whether it succeeds or not.
-/
namespace JvmCalls

/-- A number as an index of a pool, unless it is too large for one. -/
def PoolIndex.ofNat? (n : Nat) : Option PoolIndex :=
  if n < UInt16.size then some n.toUInt16 else none

/-- The sum of two indices, unless it is too large for one. -/
def PoolIndex.add? (i j : PoolIndex) : Option PoolIndex := ofNat? (i.toNat + j.toNat)

/-- Entry number `i` is stored at position `i - 1`. The second half of a
wide entry is empty. `texts` finds the index of a text without a search. -/
structure ConstantPool where
  entries : Array (Option Constant) := #[]
  texts : Std.HashMap String PoolIndex := {}
deriving Inhabited

/-- A pool operation: a result or an error, and the pool afterwards in both
cases. -/
abbrev PoolM := ExceptT ClassFileError (StateM ConstantPool)

/-- A method as its name, descriptor and owner stand in the pool. -/
structure MethodRef where
  owner : String
  name : String
  descriptor : String
  isInterface : Bool
deriving DecidableEq, Repr, Inhabited

namespace MethodRef

def render (r : MethodRef) : String := r.owner ++ "." ++ r.name ++ r.descriptor

def parsedDescriptor (r : MethodRef) : Except ClassFileError MethodDescriptor :=
  MethodDescriptor.ofString r.descriptor

end MethodRef

namespace ConstantPool

/-- Number of indices in use, second halves included. -/
def size (p : ConstantPool) : Nat := p.entries.size

def isEmpty (p : ConstantPool) : Bool := p.entries.isEmpty

/-- The index of an entry that is the same value, if there is one. -/
def find? (p : ConstantPool) (c : Constant) : Option PoolIndex :=
  match c with
  | .utf8 text => p.texts[text]?
  | c => (p.entries.findIdx? fun entry => entry.any (·.same c)).map fun i => i.toUInt16 + 1

/-- The index of a new entry. There is none unless the index behind the
entry is still a number of 16 bits. -/
def nextIndex? (p : ConstantPool) (c : Constant) : Option PoolIndex :=
  (PoolIndex.ofNat? (p.size + 1)).filter fun index =>
    (PoolIndex.add? index c.width.toUInt16).isSome

/-- The pool with one more entry, at an index that is the next one. -/
def append (p : ConstantPool) (index : PoolIndex) (c : Constant) : ConstantPool :=
  let entries := p.entries.push (some c)
  { entries := if c.width = 2 then entries.push none else entries
    texts := match c with
      | .utf8 text => p.texts.insert text index
      | _ => p.texts }

/-- The index of a constant, which is added unless the pool has it
already. -/
def push (c : Constant) : PoolM PoolIndex := fun p =>
  match p.find? c with
  | some index => (.ok index, p)
  | none =>
    match p.nextIndex? c with
    | some index => (.ok index, p.append index c)
    | none => (.error .constantPoolOverflow, p)

/-- The index of a text. -/
def pushText (text : String) : PoolM PoolIndex := push (.utf8 text)

/-- The index of a class. Its name is pushed first and stays, even if there
is no room left for the class. -/
def pushClass (name : String) : PoolM PoolIndex := do
  let name ← pushText name
  push (.classRef name)

def pushString (text : String) : PoolM PoolIndex := do
  let text ← pushText text
  push (.string text)

def pushNameAndType (name descriptor : String) : PoolM PoolIndex := do
  let name ← pushText name
  let descriptor ← pushText descriptor
  push (.nameAndType name descriptor)

/-- The index of a method. The owner comes before name and type. -/
def pushMethodRef (owner name descriptor : String) (isInterface : Bool) : PoolM PoolIndex := do
  let owner ← pushClass owner
  let nameAndType ← pushNameAndType name descriptor
  push (if isInterface then .interfaceMethodRef owner nameAndType else .methodRef owner nameAndType)

def pushInvokeDynamic (bootstrap : UInt16) (name descriptor : String) : PoolM PoolIndex := do
  let nameAndType ← pushNameAndType name descriptor
  push (.invokeDynamic bootstrap nameAndType)

/-- The entry at an index. Zero and the second half of a wide entry are no
indices. -/
def get (p : ConstantPool) (index : PoolIndex) : Except ClassFileError Constant :=
  if index = 0 then .error (.constantNotFound index)
  else
    match p.entries[index.toNat - 1]? with
    | some (some c) => .ok c
    | _ => .error (.constantNotFound index)

/-- The text at an index, which must be one. -/
def text (p : ConstantPool) (index : PoolIndex) : Except ClassFileError String := do
  match ← p.get index with
  | .utf8 text => return text
  | _ => throw (.unexpectedConstant index .utf8)

/-- The name of the class at an index, over two entries. -/
def className (p : ConstantPool) (index : PoolIndex) : Except ClassFileError String := do
  match ← p.get index with
  | .classRef name => p.text name
  | _ => throw (.unexpectedConstant index .classRef)

/-- Name and descriptor at an index, over three entries. -/
def nameAndType (p : ConstantPool) (index : PoolIndex) :
    Except ClassFileError (String × String) := do
  match ← p.get index with
  | .nameAndType name descriptor =>
    let name ← p.text name
    let descriptor ← p.text descriptor
    return (name, descriptor)
  | _ => throw (.unexpectedConstant index .nameAndType)

/-- A method reference of either kind. Name and descriptor are read before
the owner. -/
def methodRef (p : ConstantPool) (index : PoolIndex) : Except ClassFileError MethodRef := do
  let read (owner nameAndType : PoolIndex) (isInterface : Bool) := do
    let (name, descriptor) ← p.nameAndType nameAndType
    let owner ← p.className owner
    return (⟨owner, name, descriptor, isInterface⟩ : MethodRef)
  match ← p.get index with
  | .methodRef owner nameAndType => read owner nameAndType false
  | .interfaceMethodRef owner nameAndType => read owner nameAndType true
  | _ => throw (.unexpectedConstant index .methodRef)

/-- Name and descriptor of a dynamic call site. -/
def invokeDynamic (p : ConstantPool) (index : PoolIndex) :
    Except ClassFileError (String × String) := do
  match ← p.get index with
  | .invokeDynamic _ nameAndType => p.nameAndType nameAndType
  | _ => throw (.unexpectedConstant index .invokeDynamic)

/-- The entries with their indices, in order. -/
def toList (p : ConstantPool) : List (Nat × Constant) :=
  p.entries.toList.zipIdx.filterMap fun (entry, i) => entry.map fun c => (i + 1, c)

end ConstantPool

end JvmCalls
