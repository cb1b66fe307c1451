import JvmCalls.Method.Signature
import JvmCalls.Selection.Lookup

/-!
Selecting the classes whose method a call runs, for each kind of call.
A class that is not in the repository is counted as missing, and then stands
for itself.
-/
namespace JvmCalls

namespace Repository

/-- Records that a class is not in the repository. -/
def reportMissing (call className : String) : Traced Unit := do
  Traced.log .debug (call ++ ": class " ++ className ++ " not found")
  Traced.count .missingClass

/-- The class whose method a static call runs: the nearest that declares it,
or the class that is referred to. -/
def selectStatic (r : Repository) (ref : MethodRef) : Traced String := do
  if r.isDefined ref.owner then
    return ((r.definedLineage ref.owner).find? (r.declares ref.name ref.descriptor)).getD ref.owner
  else
    reportMissing ("static call to " ++ ref.render) ref.owner
    return ref.owner

/-- Whether a special call starts at the superclass of the calling class and
not at the class that is referred to. -/
def startsAtSuperclass (r : Repository) (caller : ClassFile) (ref : MethodRef) : Traced Bool :=
  if caller.isSuper && ref.name != constructorName &&
      (r.definition? ref.owner).any (fun c => !c.isInterface) then
    r.isSubclassOf caller.name ref.owner
  else return false

/-- The class at which a special call starts. -/
def specialStart (r : Repository) (caller : ClassFile) (ref : MethodRef) : Traced String := do
  let atSuperclass ← r.startsAtSuperclass caller ref
  match caller.superclass with
  | some superclass => return if atSuperclass then superclass else ref.owner
  | none => return ref.owner

/-- The classes whose method a special call from `caller` runs, in ascending
order. -/
def selectSpecial (r : Repository) (caller : ClassFile) (ref : MethodRef) :
    Traced (List String) := do
  let start ← r.specialStart caller ref
  match r.definition? start with
  | none =>
    reportMissing ("special call to " ++ ref.render) start
    return [start]
  | some c =>
    if (c.findMethod? ref.name ref.descriptor).isSome then return [start]
    if c.isInterface then
      if r.objectHasMethod ref.name ref.descriptor then return [objectName]
      else return r.maximallySpecific start ref.name ref.descriptor
    else
      match c.superclass.bind fun s => r.superclassSearch? s ref.name ref.descriptor with
      | some found => return [found]
      | none => return r.maximallySpecific start ref.name ref.descriptor

/-- The classes whose method a virtual or interface call runs on a receiver
of the given runtime type, in ascending order. There are none where the type
is unknown. -/
def selectVirtual (r : Repository) (receiver : Option String) (name descriptor : String) :
    Traced (List String) := do
  match receiver with
  | none => return []
  | some type =>
    if r.isDefined type then
      match r.superclassSearch? type name descriptor with
      | some found => return [found]
      | none => return r.maximallySpecific type name descriptor
    else
      reportMissing ("virtual call to " ++ name ++ descriptor) type
      return [type]

end Repository

/-- A dynamic call site is bound at run time. Only its descriptor is
known. -/
def dynamicSignature (descriptor : String) : MethodSignature :=
  ⟨none, none, some descriptor⟩

/-- The signature of a call as far as the instruction alone tells it. Only
static calls name their class. An instruction that is no call, or whose
constant is not what it should be, tells nothing. -/
def ClassFile.quickSignature (c : ClassFile) (i : Instr) : MethodSignature :=
  match i.invocation? with
  | none => .unknown
  | some (kind, index) =>
    let signature : Except ClassFileError MethodSignature :=
      match kind with
      | .dynamic => do
        let (_, descriptor) ← c.constants.invokeDynamic index
        return dynamicSignature descriptor
      | .static => do
        let ref ← c.constants.methodRef index
        return .of ref.owner ref.name ref.descriptor
      | _ => do
        let ref ← c.constants.methodRef index
        return ⟨none, some ref.name, some ref.descriptor⟩
    match signature with
    | .ok signature => signature
    | .error _ => .unknown

end JvmCalls
