import JvmCalls.ClassFile.Basic
import JvmCalls.Method.Signature
import JvmCalls.Value.Basic

/-!
Calls. A call goes from a position in a method to a target, which is either
a method found in the repository or just a signature. It may carry the
values found on the stack around it.
-/
namespace JvmCalls

/-- What is called. A target is concrete where the repository has the
method, and symbolic where all that is known is how it is referred to. -/
inductive CallTarget where
  /-- A method found in the repository, with the class that declares it. -/
  | concrete (signature : MethodSignature) (owner : ClassFile) (method : MethodInfo)
  /-- A signature, perhaps with unknown parts. -/
  | symbolic (signature : MethodSignature)
deriving Inhabited

namespace CallTarget

/-- The signature by which the target is a vertex of the graph. -/
def signature : CallTarget → MethodSignature
  | concrete signature _ _ => signature
  | symbolic signature => signature

def isConcrete : CallTarget → Bool
  | concrete _ _ _ => true
  | symbolic _ => false

def owner? : CallTarget → Option ClassFile
  | concrete _ owner _ => some owner
  | symbolic _ => none

def method? : CallTarget → Option MethodInfo
  | concrete _ _ method => some method
  | symbolic _ => none

end CallTarget

/-- A call as it was found at an instruction of the caller. One instruction
may make several calls, one for each class that is selected. -/
structure Call where
  caller : CodeLocation
  target : CallTarget
  instr : Instr
  /-- Nullness of the receiver. Calls without receiver have `never`. -/
  nullness : Nullness
  /-- The call may be left out on some path to the exit of the caller. -/
  controlFlowDependent : Bool := false
  /-- The target depends on the runtime type of the receiver. -/
  runtimeTypeDependent : Bool := false
  receiver : Option Value := none
  arguments : List Value := []
  result : Option Value := none
deriving Inhabited

namespace Call

def callerSignature (c : Call) : MethodSignature := c.caller.signature

/-- The method that is called, or as much of it as is known. -/
def targetSignature (c : Call) : MethodSignature := c.target.signature

def isConcrete (c : Call) : Bool := c.target.isConcrete

/-- The kind of call as the instruction tells it. Every call that a resolver
makes has one. -/
def invokeKind? (c : Call) : Option InvokeKind := c.instr.invocation?.map Prod.fst

/-- The call as log messages show it. -/
def render (c : Call) : String :=
  c.caller.render ++ " -> " ++ c.targetSignature.render ++
    if c.isConcrete then "" else " (symbolic)"

/-- The call without the values around it. All else stays, so that the call
is between the same methods. -/
def clearValues (c : Call) : Call :=
  { c with receiver := none, arguments := [], result := none }

end Call

end JvmCalls
