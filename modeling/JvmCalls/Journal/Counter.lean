/-!
Counters of a resolution. They tell how much of a program was resolved, and
what was missing. A counter has 64 bits and starts over after its largest
value.
-/
namespace JvmCalls

/-- What is counted. Counters are kept apart from messages, which may be
turned off. -/
inductive Counter where
  /-- A class that is referred to is not in the repository. -/
  | missingClass
  /-- A class is in the repository, but the method that is called is not in the class. -/
  | missingMethod
  | incompleteCallSkipped
  | symbolicCall
  | concreteCall
  /-- An evaluation of a method failed, so its calls are reported with less detail. -/
  | analysisDegraded
  | evaluationTooComplex
  | emptyCode
  | malformedInvocation
  | dominatorFailure
deriving DecidableEq, Repr, Inhabited

namespace Counter

/-- All counters, in the order in which they are shown. -/
def all : List Counter :=
  [missingClass, missingMethod, incompleteCallSkipped, symbolicCall, concreteCall,
   analysisDegraded, evaluationTooComplex, emptyCode, malformedInvocation, dominatorFailure]

/-- The name of a counter in a summary. -/
def render : Counter → String
  | missingClass => "missing classes"
  | missingMethod => "missing methods"
  | incompleteCallSkipped => "skipped incomplete calls"
  | symbolicCall => "symbolic calls"
  | concreteCall => "concrete calls"
  | analysisDegraded => "degraded analyses"
  | evaluationTooComplex => "too complex evaluations"
  | emptyCode => "empty codes"
  | malformedInvocation => "malformed invocations"
  | dominatorFailure => "dominators failures"

end Counter

/-- The value of every counter. All start at zero. -/
structure Metrics where
  missingClass : UInt64 := 0
  missingMethod : UInt64 := 0
  incompleteCallSkipped : UInt64 := 0
  symbolicCall : UInt64 := 0
  concreteCall : UInt64 := 0
  analysisDegraded : UInt64 := 0
  evaluationTooComplex : UInt64 := 0
  emptyCode : UInt64 := 0
  malformedInvocation : UInt64 := 0
  dominatorFailure : UInt64 := 0
deriving DecidableEq, Repr, Inhabited

namespace Metrics

def get (m : Metrics) : Counter → UInt64
  | .missingClass => m.missingClass
  | .missingMethod => m.missingMethod
  | .incompleteCallSkipped => m.incompleteCallSkipped
  | .symbolicCall => m.symbolicCall
  | .concreteCall => m.concreteCall
  | .analysisDegraded => m.analysisDegraded
  | .evaluationTooComplex => m.evaluationTooComplex
  | .emptyCode => m.emptyCode
  | .malformedInvocation => m.malformedInvocation
  | .dominatorFailure => m.dominatorFailure

def add (m : Metrics) (c : Counter) (n : UInt64) : Metrics :=
  match c with
  | .missingClass => { m with missingClass := m.missingClass + n }
  | .missingMethod => { m with missingMethod := m.missingMethod + n }
  | .incompleteCallSkipped => { m with incompleteCallSkipped := m.incompleteCallSkipped + n }
  | .symbolicCall => { m with symbolicCall := m.symbolicCall + n }
  | .concreteCall => { m with concreteCall := m.concreteCall + n }
  | .analysisDegraded => { m with analysisDegraded := m.analysisDegraded + n }
  | .evaluationTooComplex => { m with evaluationTooComplex := m.evaluationTooComplex + n }
  | .emptyCode => { m with emptyCode := m.emptyCode + n }
  | .malformedInvocation => { m with malformedInvocation := m.malformedInvocation + n }
  | .dominatorFailure => { m with dominatorFailure := m.dominatorFailure + n }

def increment (m : Metrics) (c : Counter) : Metrics := m.add c 1

/-- Adding to a counter leaves the others alone. -/
theorem get_add (m : Metrics) (c d : Counter) (n : UInt64) :
    (m.add c n).get d = if c = d then m.get d + n else m.get d := by
  cases c <;> cases d <;> rfl

/-- The sums of the counters, each of which may start over. -/
def merge (m other : Metrics) : Metrics :=
  Counter.all.foldl (fun sum c => sum.add c (other.get c)) m

/-- Every counter with its value. -/
def snapshot (m : Metrics) : List (Counter × UInt64) :=
  Counter.all.map fun c => (c, m.get c)

/-- Every counter with its value, and the counters set back to zero. -/
def flush (m : Metrics) : List (Counter × UInt64) × Metrics := (m.snapshot, {})

/-- A heading, then a line for every counter that is not zero. -/
def summary (m : Metrics) : List String :=
  "call graph resolution summary:" ::
    (m.snapshot.filter fun (_, n) => n != 0).map fun (c, n) =>
      "  " ++ c.render ++ ": " ++ toString n

end Metrics

end JvmCalls
