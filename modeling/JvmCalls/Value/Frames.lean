import JvmCalls.ClassFile.Address
import JvmCalls.Value.Basic

/-!
Operand stacks around the instructions of a method. Stacks are recorded
value by value and read slot by slot: a number that takes two slots stands
in the upper one.
-/
namespace JvmCalls

/-- The stack of each recorded address, bottom first. The latest record of
an address comes first. -/
structure Frames where
  before : List (Address × List Value) := []
  after : List (Address × List Value) := []
  steps : Nat := 0
deriving Repr, Inhabited

namespace Frames

/-- The slots of a stack of values, bottom first. -/
def slots (values : List Value) : List Value :=
  values.flatMap fun v => if v.isCategory2 then [.top, v] else [v]

/-- The slot at a depth. The top has depth zero. -/
def slotAt? (stack : List Value) (depth : Nat) : Option Value :=
  stack.reverse[depth]?

def setBefore (f : Frames) (address : Address) (values : List Value) : Frames :=
  { f with before := (address, slots values) :: f.before }

def setAfter (f : Frames) (address : Address) (values : List Value) : Frames :=
  { f with after := (address, slots values) :: f.after }

def stackBefore? (f : Frames) (address : Address) (depth : Nat) : Option Value :=
  (f.before.lookup address).bind fun stack => slotAt? stack depth

def stackAfter? (f : Frames) (address : Address) (depth : Nat) : Option Value :=
  (f.after.lookup address).bind fun stack => slotAt? stack depth

def isEvaluated (f : Frames) (address : Address) : Bool :=
  (f.before.lookup address).isSome

end Frames

end JvmCalls
