import JvmCalls.Hierarchy.Repository
import JvmCalls.Value.Frames

/-!
Evaluations. An evaluator computes the operand stacks of a method, or tells
why it cannot. Evaluations done ahead of time are served by signature.
-/
namespace JvmCalls

inductive EvaluationError where
  | tooComplex (maxSteps : Nat)
  | emptyCode
  | notAvailable (text : String)
  | failed (reason : String)
deriving DecidableEq, Repr

def EvaluationError.message : EvaluationError → String
  | tooComplex maxSteps =>
    "evaluation too complex: more than " ++ toString maxSteps ++ " steps needed"
  | emptyCode => "method has an empty code"
  | notAvailable text => "no evaluation available for " ++ text
  | failed reason => "evaluation failed: " ++ reason

/-- The evaluation of a method of a class, within a number of steps if that
is given. -/
abbrev Evaluator :=
  Repository → ClassFile → MethodInfo → Option Nat → Except EvaluationError Frames

def MethodInfo.signature (m : MethodInfo) (owner : ClassFile) : MethodSignature :=
  .of owner.name m.name m.descriptor

/-- Evaluations by signature. The latest one of a signature comes first. -/
structure Precomputed where
  entries : List (MethodSignature × Except EvaluationError Frames) := []
deriving Inhabited

namespace Precomputed

def insert (p : Precomputed) (s : MethodSignature) (outcome : Except EvaluationError Frames) :
    Precomputed :=
  ⟨(s, outcome) :: p.entries.filter fun e => e.1 != s⟩

def size (p : Precomputed) : Nat := p.entries.length

def isEmpty (p : Precomputed) : Bool := p.entries.isEmpty

def evaluate (p : Precomputed) : Evaluator := fun _ owner m maxSteps => do
  if m.code.all Code.isEmpty then throw .emptyCode
  let signature := m.signature owner
  match p.entries.lookup signature with
  | none => throw (.notAvailable signature.render)
  | some outcome =>
    let frames ← outcome
    match maxSteps with
    | some limit => if limit < frames.steps then throw (.tooComplex limit) else return frames
    | none => return frames

end Precomputed

end JvmCalls
