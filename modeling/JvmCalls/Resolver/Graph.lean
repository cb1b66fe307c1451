import JvmCalls.Resolver.Visit

/-!
Call graphs of repositories. Each class is resolved on its own and gives a
graph, and the graphs are merged in the order of the classes. Several
classes have no common order of events, so of what happens within them only
the counters are passed on.
-/
namespace JvmCalls

namespace CallGraph

def mergeAll (graphs : List CallGraph) : CallGraph := graphs.foldl merge empty

/-- The graph of the calls of one class, by a resolver that has not visited
any other. -/
def ofClass (r : Resolver) (c : ClassFile) : Traced CallGraph := do
  let work ← r.visitClass ⟨r.initialState, empty⟩ c
  return work.graph

/-- The graphs of some classes. The events of a class are passed on where it
is the only one. -/
def ofEach (r : Resolver) (classes : List ClassFile) : Traced (List CallGraph) :=
  let graphs := Traced.gather classes fun c => return [← ofClass r c]
  if classes.length ≤ 1 then graphs else graphs.countsOnly

/-- Which events are passed on has no part in the graphs. -/
theorem value_ofEach (r : Resolver) (classes : List ClassFile) :
    (ofEach r classes).value = classes.map fun c => (ofClass r c).value := by
  unfold ofEach
  split <;> simp [Traced.value_gather, List.map_eq_flatMap]

/-- The graph of the calls of some classes. -/
def ofClasses (r : Resolver) (classes : List ClassFile) : Traced CallGraph := do
  Traced.log .info ("resolving calls of " ++ toString classes.length ++ " classes")
  let graphs ← ofEach r classes
  let g := mergeAll graphs
  Traced.log .info
    ("call graph contains " ++ toString g.methodCount ++ " methods and " ++
      toString g.callCount ++ " calls (" ++ toString g.symbolicCount ++ " symbolic)")
  return g

/-- The graph of the calls of a whole repository. -/
def ofRepository (r : Resolver) : Traced CallGraph := ofClasses r r.classes

/-- The graph of the calls of the classes whose name passes a test. -/
def ofNamed (r : Resolver) (p : String → Bool) : Traced CallGraph :=
  ofClasses r (r.classes.filter fun c => p c.name)

/-- The graph of the calls of the classes whose name matches a pattern,
which is given by its text and compiled to a test of names. There is
none where the text is no pattern. -/
def ofMatching? (compile : String → Option (String → Bool)) (r : Resolver) (text : String) :
    Traced (Option CallGraph) := do
  match compile text with
  | none => return none
  | some p =>
    Traced.log .debug ("filtering classes on pattern Regex(" ++ Text.quoted text ++ ")")
    let g ← ofNamed r p
    return some g

end CallGraph

end JvmCalls
