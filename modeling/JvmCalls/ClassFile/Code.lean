import JvmCalls.ClassFile.Error
import JvmCalls.ClassFile.Instruction

/-! The code of a method: instructions, exception table and line numbers. -/
namespace JvmCalls

/-- Exceptions thrown from `start` up to but not including `stop` continue
at `handler`. Without a catch type every exception does. -/
structure ExceptionHandler where
  start : Address
  stop : Address
  handler : Address
  catchType : Option String
deriving DecidableEq, Repr, Inhabited

/-- The address lies in the range, which does not include its end. -/
def ExceptionHandler.covers (h : ExceptionHandler) (a : Address) : Bool :=
  h.start ≤ a && a < h.stop

/-- From `start` on the code belongs to a source line. -/
structure LineNumber where
  start : Address
  line : UInt16
deriving DecidableEq, Repr, Inhabited

/-- Of two entries the later in the code, and the later in the table if they
start at the same address. -/
def LineNumber.later (best : Option LineNumber) (n : LineNumber) : Option LineNumber :=
  match best with
  | some b => if b.start ≤ n.start then some n else some b
  | none => some n

/-- The code of a method. Handlers and lines are in the order of their
tables, which matters where they overlap. -/
structure Code where
  maxStack : UInt16
  maxLocals : UInt16
  instrs : List PlacedInstr
  handlers : List ExceptionHandler
  lines : List LineNumber
deriving DecidableEq, Repr, Inhabited

namespace Code

def isEmpty (c : Code) : Bool := c.instrs.isEmpty

/-- Length of the code in bytes. It ends where the last instruction does. -/
def length (c : Code) : Nat :=
  match c.instrs.getLast? with
  | some last => last.next.offset
  | none => 0

def addresses (c : Code) : List Address := c.instrs.map PlacedInstr.address

/-- The first instruction at an address. An instruction without size shares
its address with the next one. -/
def instrAt? (c : Code) (a : Address) : Option PlacedInstr :=
  c.instrs.find? fun p => p.address == a

def instrAt (c : Code) (a : Address) : Except ClassFileError PlacedInstr :=
  match c.instrAt? a with
  | some p => .ok p
  | none => .error (.instructionNotFound a)

/-- Handlers of exceptions thrown at an address, in table order. -/
def handlersCovering (c : Code) (a : Address) : List ExceptionHandler :=
  c.handlers.filter fun h => h.covers a

/-- The source line of an address: that of the closest entry at or before
it. -/
def lineAt? (c : Code) (a : Address) : Option UInt16 :=
  ((c.lines.filter fun n => n.start ≤ a).foldl LineNumber.later none).map LineNumber.line

end Code

end JvmCalls
