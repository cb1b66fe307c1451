import JvmCalls.Resolver.Basic

/-!
The operands of a call. Arguments lie on the stack in order, the last on
top, and the receiver below them.
-/
namespace JvmCalls

/-- The values around a call. -/
structure Operands where
  receiver : Option Value := none
  arguments : List Value := []
  result : Option Value := none
deriving Repr, Inhabited

namespace MethodFacts

/-- The value at a depth before an instruction: one with several types
first, then a particular one. -/
def stackValue (facts : MethodFacts) (a : Address) (depth : Nat) : Value :=
  let particular := facts.particular.bind fun f => f.stackBefore? a depth
  let multiType := facts.multiType.bind fun f => f.stackBefore? a depth
  match multiType.filter fun v => 1 < v.typeCount with
  | some value => value
  | none => (particular.or multiType).getD .top

/-- Reads an argument of the given type at the depth that was reached, and
goes below it. -/
def readArgument (facts : MethodFacts) (a : Address) (read : List Value × Nat) (t : JvmType) :
    List Value × Nat :=
  (facts.stackValue a read.2 :: read.1, read.2 + t.slots)

/-- The arguments of a call, read from the last one down, and the depth
below all of them. -/
def readArguments (facts : MethodFacts) (a : Address) (types : List JvmType) :
    List Value × Nat :=
  types.reverse.foldl (facts.readArgument a) ([], 0)

def operands (facts : MethodFacts) (a : Address) (d : MethodDescriptor) (hasReceiver : Bool) :
    Operands :=
  let (arguments, depth) := facts.readArguments a d.parameters
  { receiver := if hasReceiver then some (facts.stackValue a depth) else none
    arguments
    result := if d.isVoid then none else facts.particular.bind fun f => f.stackAfter? a 0 }

/-- The references that an evaluation found at a depth before an
instruction. -/
def foundReferences (frames : Option Frames) (a : Address) (depth : Nat) : List Reference :=
  match frames.bind fun f => f.stackBefore? a depth with
  | some value => value.references
  | none => []

/-- The receivers that a call of a method of `owner` may have. Without any
evaluation of the receiver it is of the class that is referred to. -/
def receivers (facts : MethodFacts) (a : Address) (depth : Nat) (owner : String) :
    List Reference :=
  match foundReferences facts.multiType a depth with
  | [] =>
    match foundReferences facts.particular a depth with
    | [] => [.extensible owner]
    | found => found
  | found => found

end MethodFacts

end JvmCalls
