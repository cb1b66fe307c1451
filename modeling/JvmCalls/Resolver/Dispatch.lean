import JvmCalls.Resolver.Basic
import JvmCalls.Selection.Invocation

/-!
Dispatch of virtual and interface calls on the receivers they may have.
A class is a target once, with the nullness of the first receiver that leads
to it.
-/
namespace JvmCalls

/-- A class whose method is called, and the nullness of the receiver. -/
structure Selected where
  owner : String
  nullness : Nullness
deriving DecidableEq, Repr, Inhabited

/-- The first selection of each class, in order. -/
def Selected.firstOfEach (targets : List Selected) : List Selected :=
  targets.eraseDupsBy fun a b => a.owner == b.owner

namespace Resolver

/-- The defined subclasses of a class that are no interfaces. -/
def concreteSubclasses (r : Resolver) (name : String) : List String :=
  (r.repository.subclasses name).filter fun s =>
    (r.repository.definition? s).any fun c => !c.isInterface

/-- The classes that a receiver of some runtime type leads to. Where none
implements the method, the type stands for itself. -/
def classesOfType (r : Resolver) (ref : MethodRef) (type : String) : Traced (List String) := do
  let found ← r.repository.selectVirtual (some type) ref.name ref.descriptor
  return if found.isEmpty then [type] else found

/-- The classes that the subclasses of a receiver's type lead to. -/
def classesOfSubtypes (r : Resolver) (ref : MethodRef) (receiver : Reference) (type : String) :
    Traced (List String) :=
  if r.options.includeSubclasses && receiver.mayExtend && type != objectName then
    Traced.gather (r.concreteSubclasses type) fun s =>
      r.repository.selectVirtual (some s) ref.name ref.descriptor
  else return []

/-- The targets of a call on one receiver, in ascending order. -/
def dispatchOn (r : Resolver) (ref : MethodRef) (receiver : Reference) :
    Traced (List Selected) := do
  if receiver.nullness = .always then return [⟨ref.owner, .always⟩]
  let type := receiver.typeName.getD ref.owner
  let own ← r.classesOfType ref type
  let inherited ← r.classesOfSubtypes ref receiver type
  return (sortedNames (own ++ inherited)).map fun owner => ⟨owner, receiver.nullness⟩

def dispatch (r : Resolver) (ref : MethodRef) (receivers : List Reference) :
    Traced (List Selected) := do
  let targets ← Traced.gather receivers (r.dispatchOn ref)
  return Selected.firstOfEach targets

end Resolver

end JvmCalls
