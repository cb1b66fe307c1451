/-!
Access flags of classes and methods. The two kinds share bit positions but
not the meaning of every bit: what marks a synchronized method marks, on
a class, the newer treatment of special calls.
-/
namespace JvmCalls

/-- The flags that a class may have. -/
inductive ClassFlag where
  | accPublic | accFinal | accSuper | accInterface | accAbstract
  | accSynthetic | accAnnotation | accEnum | accModule
deriving DecidableEq, Repr

namespace ClassFlag

/-- All flags in the order in which they are written. -/
def all : List ClassFlag :=
  [accPublic, accFinal, accSuper, accInterface, accAbstract,
   accSynthetic, accAnnotation, accEnum, accModule]

def mask : ClassFlag → UInt16
  | accPublic => 0x0001
  | accFinal => 0x0010
  | accSuper => 0x0020
  | accInterface => 0x0200
  | accAbstract => 0x0400
  | accSynthetic => 0x1000
  | accAnnotation => 0x2000
  | accEnum => 0x4000
  | accModule => 0x8000

def keyword : ClassFlag → String
  | accPublic => "public"
  | accFinal => "final"
  | accSuper => "super"
  | accInterface => "interface"
  | accAbstract => "abstract"
  | accSynthetic => "synthetic"
  | accAnnotation => "annotation"
  | accEnum => "enum"
  | accModule => "module"

end ClassFlag

/-- The flags that a method may have. -/
inductive MethodFlag where
  | accPublic | accPrivate | accProtected | accStatic | accFinal | accSynchronized
  | accBridge | accVarargs | accNative | accAbstract | accStrict | accSynthetic
deriving DecidableEq, Repr

namespace MethodFlag

/-- All flags in the order in which they are written. -/
def all : List MethodFlag :=
  [accPublic, accPrivate, accProtected, accStatic, accFinal, accSynchronized,
   accBridge, accVarargs, accNative, accAbstract, accStrict, accSynthetic]

def mask : MethodFlag → UInt16
  | accPublic => 0x0001
  | accPrivate => 0x0002
  | accProtected => 0x0004
  | accStatic => 0x0008
  | accFinal => 0x0010
  | accSynchronized => 0x0020
  | accBridge => 0x0040
  | accVarargs => 0x0080
  | accNative => 0x0100
  | accAbstract => 0x0400
  | accStrict => 0x0800
  | accSynthetic => 0x1000

def keyword : MethodFlag → String
  | accPublic => "public"
  | accPrivate => "private"
  | accProtected => "protected"
  | accStatic => "static"
  | accFinal => "final"
  | accSynchronized => "synchronized"
  | accBridge => "bridge"
  | accVarargs => "varargs"
  | accNative => "native"
  | accAbstract => "abstract"
  | accStrict => "strict"
  | accSynthetic => "synthetic"

end MethodFlag

/-- A set of class flags as the class file stores it. -/
structure ClassFlags where
  bits : UInt16
deriving DecidableEq, Repr, Inhabited

/-- A set of method flags as the class file stores it. -/
structure MethodFlags where
  bits : UInt16
deriving DecidableEq, Repr, Inhabited

namespace ClassFlags

def ofList (flags : List ClassFlag) : ClassFlags :=
  ⟨flags.foldl (fun bits flag => bits ||| flag.mask) 0⟩

def known : ClassFlags := ofList ClassFlag.all

/-- Bits without meaning are dropped. -/
def truncate (bits : UInt16) : ClassFlags := ⟨bits &&& known.bits⟩

/-- Refuses bits without meaning. -/
def ofBits? (bits : UInt16) : Option ClassFlags :=
  if truncate bits = ⟨bits⟩ then some ⟨bits⟩ else none

def contains (flags : ClassFlags) (flag : ClassFlag) : Bool :=
  flags.bits &&& flag.mask == flag.mask

/-- Each flag that is set, followed by a blank. -/
def render (flags : ClassFlags) : String :=
  String.join ((ClassFlag.all.filter flags.contains).map fun flag => flag.keyword ++ " ")

end ClassFlags

namespace MethodFlags

def ofList (flags : List MethodFlag) : MethodFlags :=
  ⟨flags.foldl (fun bits flag => bits ||| flag.mask) 0⟩

def known : MethodFlags := ofList MethodFlag.all

/-- Bits without meaning are dropped. -/
def truncate (bits : UInt16) : MethodFlags := ⟨bits &&& known.bits⟩

/-- Refuses bits without meaning. -/
def ofBits? (bits : UInt16) : Option MethodFlags :=
  if truncate bits = ⟨bits⟩ then some ⟨bits⟩ else none

def contains (flags : MethodFlags) (flag : MethodFlag) : Bool :=
  flags.bits &&& flag.mask == flag.mask

/-- Each flag that is set, followed by a blank. -/
def render (flags : MethodFlags) : String :=
  String.join ((MethodFlag.all.filter flags.contains).map fun flag => flag.keyword ++ " ")

end MethodFlags

end JvmCalls
