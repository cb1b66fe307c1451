import JvmCalls.Hierarchy.Repository
import JvmCalls.Sorted

/-!
Looking a method up in the hierarchy. A search through superclasses ends at
the first class without definition. Where no superclass has the method, the
default methods of the superinterfaces are candidates, and those that
another candidate overrides drop out. More than one may be left.
-/
namespace JvmCalls

/-- The public instance methods of the root class, for programs that do not
bring it. -/
def objectMethods : List (String × String) :=
  [("equals", "(Ljava/lang/Object;)Z"),
   ("getClass", "()Ljava/lang/Class;"),
   ("hashCode", "()I"),
   ("notify", "()V"),
   ("notifyAll", "()V"),
   ("toString", "()Ljava/lang/String;"),
   ("wait", "()V"),
   ("wait", "(J)V"),
   ("wait", "(JI)V")]

namespace Repository

/-- Whether the root class has a public instance method. -/
def objectHasMethod (r : Repository) (name descriptor : String) : Bool :=
  match r.definition? objectName with
  | some object =>
    (object.findMethod? name descriptor).any fun m => m.isPublic && !m.isStatic
  | none => objectMethods.contains (name, descriptor)

/-- A class and its superclasses before the first that is not defined or
repeats. -/
def definedLineage (r : Repository) (name : String) : List String :=
  (r.lineage name).takeWhile r.isDefined

def declares (r : Repository) (name descriptor owner : String) : Bool :=
  (r.findMethod? owner name descriptor).isSome

/-- A class declares the method, and not as abstract. -/
def implements (r : Repository) (name descriptor owner : String) : Bool :=
  (r.findMethod? owner name descriptor).any fun m => !m.isAbstract

/-- The nearest class that implements the method, among a class and its
superclasses. -/
def superclassSearch? (r : Repository) (owner name descriptor : String) : Option String :=
  (r.definedLineage owner).find? (r.implements name descriptor)

/-- An interface declares the method as a default method. -/
def isDefaultMethod (r : Repository) (name descriptor interface : String) : Bool :=
  (r.findMethod? interface name descriptor).any fun m =>
    !m.isPrivate && !m.isStatic && !m.isAbstract

/-- The superinterfaces of a class that declare the method as a default
method. -/
def applicableInterfaces (r : Repository) (owner name descriptor : String) : List String :=
  (r.superinterfaces owner).filter (r.isDefaultMethod name descriptor)

/-- The applicable interfaces that are no superinterface of another
applicable one. -/
def maximallySpecific (r : Repository) (owner name descriptor : String) : List String :=
  let applicable := r.applicableInterfaces owner name descriptor
  let overridden := applicable.flatMap r.superinterfaces
  sortedNames (applicable.filter fun interface => !overridden.contains interface)

end Repository

end JvmCalls
