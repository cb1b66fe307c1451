import JvmCalls.Flow.Dominance
import JvmCalls.Resolver.Options
import JvmCalls.Value.Evaluation

/-!
Call resolvers. A resolver reads the methods of a repository and finds the
calls in them. What it knows about a method before it looks at single calls
are the stacks of up to two evaluations and the dominators of the code.
-/
namespace JvmCalls

/-- The methods that a resolver has come to, each with its class, in
order. -/
abbrev History := List (ClassFile × MethodInfo)

structure Resolver where
  repository : Repository
  options : ResolverOptions := {}
  /-- Tells the possible runtime types of receivers. -/
  multiType : Option Evaluator := none
  /-- Tells the values of arguments and results. -/
  particular : Option Evaluator := none
  /-- Asked before each method. Methods that it refuses are left out. It may remember what
  it was asked about before, so that its answer is one for the whole history. -/
  admits : Option (History → ClassFile → MethodInfo → Bool) := none
  /-- Number of visitors. All of them are shown each call, in order. -/
  visitors : Nat := 0
deriving Inhabited

/-- What is known about the method whose calls are resolved. -/
structure MethodFacts where
  multiType : Option Frames := none
  particular : Option Frames := none
  /-- The dominators, if they were asked for and could be computed. -/
  dominators : Option Dominators := none
deriving Inhabited

/-- The counters of a failed evaluation. Some causes have one of their
own. -/
def EvaluationError.counters : EvaluationError → List Counter
  | tooComplex _ => [.analysisDegraded, .evaluationTooComplex]
  | emptyCode => [.analysisDegraded, .emptyCode]
  | _ => [.analysisDegraded]

/-- The name of a method together with that of its class. -/
def MethodInfo.qualifiedName (m : MethodInfo) (owner : ClassFile) : String :=
  owner.name ++ "." ++ m.name ++ m.descriptor

namespace Resolver

/-- The stacks of a method by one of the evaluators. A failure is counted
and the method goes on without them. -/
def evaluate (r : Resolver) (evaluator : Option Evaluator) (analysis : String)
    (owner : ClassFile) (m : MethodInfo) : Traced (Option Frames) := do
  match evaluator with
  | none => return none
  | some evaluator =>
    match evaluator r.repository owner m r.options.maxAnalysisSteps with
    | .ok frames => return some frames
    | .error e =>
      Traced.log .warn
        (analysis ++ " evaluation of " ++ m.qualifiedName owner ++ " failed: " ++ e.message)
      Traced.emitAll (e.counters.map .counted)
      return none

/-- Records that the dominators of a method could not be computed. -/
def reportDominatorFailure (signature : MethodSignature) (e : FlowError) : Traced Unit := do
  Traced.log .warn ("cannot compute dominators of " ++ signature.render ++ ": " ++ e.message)
  Traced.count .dominatorFailure

/-- The dominators of a method, if the options ask for them. -/
def dominators (r : Resolver) (signature : MethodSignature) (c : Code) :
    Traced (Option Dominators) := do
  if r.options.useDominatorAnalysis then
    match ← Dominators.analyze (.new r.options.ignoreExceptionEdges) signature c with
    | (.ok (), dominators) => return some dominators
    | (.error e, _) =>
      reportDominatorFailure signature e
      return none
  else return none

def facts (r : Resolver) (owner : ClassFile) (m : MethodInfo) (c : Code) :
    Traced MethodFacts := do
  let multiType ← r.evaluate r.multiType "multi-type" owner m
  let particular ← r.evaluate r.particular "particular" owner m
  let dominators ← r.dominators (m.signature owner) c
  return ⟨multiType, particular, dominators⟩

/-- Whether a call may be left out on some path to the exit. Without an
answer it may. -/
def isControlFlowDependent (r : Resolver) (facts : MethodFacts) (a : Address) :
    Traced Bool := do
  if r.options.useDominatorAnalysis then
    match facts.dominators with
    | none => return true
    | some dominators =>
      match dominators.dominatesExit a with
      | .ok dominates => return !dominates
      | .error e =>
        Traced.log .warn ("dominators of " ++ toString a ++ " not available: " ++ e.message)
        return true
  else return false

end Resolver

end JvmCalls
