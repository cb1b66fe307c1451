import JvmCalls.ClassFile.Access
import JvmCalls.ClassFile.Code
import JvmCalls.ClassFile.Pool

/-! Classes and the methods they declare. -/
namespace JvmCalls

/-- The name of the methods that initialise a new instance. -/
def constructorName : String := "<init>"

/-- The root of every class hierarchy. -/
def objectName : String := "java/lang/Object"

/-- A method as its class declares it. Abstract and native methods have no
code. -/
structure MethodInfo where
  flags : MethodFlags
  name : String
  descriptor : String
  code : Option Code
deriving DecidableEq, Repr, Inhabited

namespace MethodInfo

def render (m : MethodInfo) : String := m.flags.render ++ m.name ++ m.descriptor

def parsedDescriptor (m : MethodInfo) : Except ClassFileError MethodDescriptor :=
  MethodDescriptor.ofString m.descriptor

def isPublic (m : MethodInfo) : Bool := m.flags.contains .accPublic
def isPrivate (m : MethodInfo) : Bool := m.flags.contains .accPrivate
def isStatic (m : MethodInfo) : Bool := m.flags.contains .accStatic
def isAbstract (m : MethodInfo) : Bool := m.flags.contains .accAbstract
def isNative (m : MethodInfo) : Bool := m.flags.contains .accNative
def isConstructor (m : MethodInfo) : Bool := m.name == constructorName

end MethodInfo

/-- A class as its file defines it. Other classes are known by name only,
and constants are shared by the code of all methods. -/
structure ClassFile where
  flags : ClassFlags
  name : String
  superclass : Option String
  interfaces : List String
  constants : ConstantPool
  methods : List MethodInfo
deriving Inhabited

namespace ClassFile

def render (c : ClassFile) : String := c.flags.render ++ c.name

/-- The first method of that name and descriptor that the class itself
declares. -/
def findMethod? (c : ClassFile) (name descriptor : String) : Option MethodInfo :=
  c.methods.find? fun m => m.name == name && m.descriptor == descriptor

def isInterface (c : ClassFile) : Bool := c.flags.contains .accInterface
def isAbstract (c : ClassFile) : Bool := c.flags.contains .accAbstract

/-- Special calls of the class go to its superclass where they name an
ancestor. -/
def isSuper (c : ClassFile) : Bool := c.flags.contains .accSuper

end ClassFile

end JvmCalls
