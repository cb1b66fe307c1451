import JvmCalls.Proofs.Journal.Interleaving
import JvmCalls.Proofs.Resolver.Visit
import JvmCalls.Resolver.Graph

/-! Resolving the classes of a repository by several workers gives the graph
and the counters of one resolver that visits them all. What is assumed of
the workers is that partial graphs are merged in the order of the classes,
in any bracketing and with any number of empty graphs in between, and that
their increments happen in any common order. -/
namespace JvmCalls

/-- How partial results are joined. Empty results may stand anywhere, and
brackets may be set in any way. -/
inductive Reduction (α : Type) where
  | empty
  | single (a : α)
  | join (left right : Reduction α)
deriving DecidableEq, Repr

/-- The items in order. -/
def Reduction.items {α : Type} : Reduction α → List α
  | empty => []
  | single a => [a]
  | join left right => left.items ++ right.items

/-- The graph of the calls of some classes, joined in this way. -/
def Reduction.graph (r : Resolver) : Reduction ClassFile → CallGraph
  | empty => .empty
  | single c => (CallGraph.ofClass r c).value
  | join left right => (left.graph r).merge (right.graph r)

namespace CallGraph

/-- The increments of counters by the worker that resolves a class. -/
def increments (r : Resolver) (c : ClassFile) : List Counter :=
  (ofClass r c).events.filterMap Event.counter?

/-- Merging a graph of its own adds its calls in their order. -/
theorem merge_addAll (g : CallGraph) (l : List Call) : g.merge (empty.addAll l) = g.addAll l := by
  rw [merge, calls_addAll]
  rfl

variable {r : Resolver}

/-- A worker starts with an empty graph and with no questions behind it. -/
theorem value_ofClass (c : ClassFile) :
    (ofClass r c).value = empty.addAll (r.callsOfClass [] c).value :=
  (Resolver.visitClass_adds ⟨r.initialState, empty⟩ c rfl).graph

theorem events_ofClass (c : ClassFile) : (ofClass r c).events = (r.callsOfClass [] c).events := by
  have hEvents := (Resolver.visitClass_adds (r := r) ⟨r.initialState, empty⟩ c rfl).events
  simpa [ofClass, Resolver.initialState] using hEvents

/-- Every way of joining the graphs adds the calls of the classes in
order. -/
theorem graph_reduction (t : Reduction ClassFile) :
    t.graph r = empty.addAll (Traced.gather t.items (r.callsOfClass [])).value := by
  induction t with
  | empty => rfl
  | single c => simp [Reduction.graph, Reduction.items, value_ofClass, Traced.value_gather]
  | join left right ihLeft ihRight =>
      rw [Reduction.graph, ihLeft, ihRight, merge_addAll, ← addAll_append]
      simp [Reduction.items, Traced.value_gather]

/-- Merging the graphs of classes one after the other adds all their calls
in order. -/
theorem foldl_merge_ofClass (g : CallGraph) (classes : List ClassFile) :
    (classes.map fun c => (ofClass r c).value).foldl merge g =
      g.addAll (Traced.gather classes (r.callsOfClass [])).value := by
  induction classes generalizing g with
  | nil => rfl
  | cons c rest ih =>
      rw [List.map_cons, List.foldl_cons, ih, value_ofClass, merge_addAll, ← addAll_append]
      simp [Traced.value_gather]

/-- Of several classes, only the increments of counters are passed on.
Workers log and show on their own, in no common order. -/
theorem events_ofEach (classes : List ClassFile) :
    (ofEach r classes).events =
      if classes.length ≤ 1 then (Traced.gather classes (r.callsOfClass [])).events
      else (Traced.gather classes (r.callsOfClass [])).countsOnly.events := by
  have hEvents : (Traced.gather classes fun c => do return [← ofClass r c]).events =
      (Traced.gather classes (r.callsOfClass [])).events := by
    simp [Traced.events_gather, events_ofClass]
  unfold ofEach
  split
  · exact hEvents
  · rw [Traced.countsOnly, Traced.countsOnly, hEvents]

/-- Whatever else is passed on, the increments of all classes are. -/
theorem counters_ofEach (classes : List ClassFile) :
    (ofEach r classes).events.filterMap Event.counter? =
      (Traced.gather classes (r.callsOfClass [])).events.filterMap Event.counter? := by
  rw [events_ofEach]
  split
  · rfl
  · exact Traced.counters_countsOnly _

theorem record_ofEach (m : Metrics) (classes : List ClassFile) :
    m.record (ofEach r classes).events =
      m.record (Traced.gather classes (r.callsOfClass [])).events := by
  rw [Metrics.record, counters_ofEach, Metrics.record]

/-- The increments of all workers are those of one resolver. -/
theorem flatten_increments (classes : List ClassFile) :
    (classes.map (increments r)).flatten =
      (Traced.gather classes (r.callsOfClass [])).events.filterMap Event.counter? := by
  have hWorker : increments r = fun c => (r.callsOfClass [] c).events.filterMap Event.counter? := by
    funext c
    rw [increments, events_ofClass]
  rw [hWorker, Traced.events_gather, List.filterMap_flatMap, List.flatMap_def]

/-- The calls of a repository are those of a resolver that visits all
classes and keeps its state from method to method: the same graph, with
methods and calls in the same order, however the partial graphs are joined,
and the same counters, however the increments of the workers are mixed. A
hook must not have a memory, for no worker knows what the others were
asked. -/
theorem pipeline_refines_sequential (r : Resolver) (hForgetful : r.Forgetful) :
    (∀ t : Reduction ClassFile, t.items = r.classes →
      t.graph r = (r.visitAll ⟨r.initialState, empty⟩).value.graph) ∧
    (ofRepository r).value = (r.visitAll ⟨r.initialState, empty⟩).value.graph ∧
    (∀ order, Interleaving (r.classes.map (increments r)) order → ∀ m : Metrics,
      order.foldl Metrics.increment m =
        m.record (r.visitAll ⟨r.initialState, empty⟩).events) ∧
    ∀ m : Metrics, m.record (ofRepository r).events =
      m.record (r.visitAll ⟨r.initialState, empty⟩).events := by
  have hSequential := Resolver.visitAll_adds (r := r) ⟨r.initialState, empty⟩ rfl
  rw [hSequential.graph, hSequential.events, hForgetful.calls]
  refine ⟨?_, ?_, ?_, ?_⟩
  · intro t hItems
    rw [graph_reduction, hItems]
  · rw [← foldl_merge_ofClass, ← value_ofEach]
    rfl
  · intro order hOrder m
    rw [Metrics.foldl_increment_perm hOrder.perm, flatten_increments, Metrics.record]
  · intro m
    rw [← record_ofEach]
    simp [ofRepository, ofClasses, Metrics.record, Traced.log, Traced.emit, List.filterMap_cons,
      Event.counter?]

/-- A class with a call whose constant is missing. -/
def malformedCaller (name : String) : ClassFile where
  flags := default
  name := name
  superclass := none
  interfaces := []
  constants := {}
  methods := [⟨default, "f", "()V",
    some ⟨0, 0, [⟨⟨0⟩, .invokeStatic 1⟩, ⟨⟨3⟩, .ret .void⟩], [], []⟩⟩]

def malformedCallers : Resolver where
  repository := ⟨{
    nodes := #[.define 1 (malformedCaller "t/A") false, .define 2 (malformedCaller "t/B") false]
    links := #[]
    distinct := by decide
    bounded := by decide }, 2, 2⟩

/-- Two workers, with an empty graph on the way and their increments
mixed. -/
theorem malformedCallers_pipeline :
    malformedCallers.Forgetful ∧
      (Reduction.join (.single (malformedCaller "t/A"))
        (.join .empty (.single (malformedCaller "t/B")))).items = malformedCallers.classes ∧
      (Reduction.join (.single (malformedCaller "t/A"))
        (.join .empty (.single (malformedCaller "t/B")))).graph malformedCallers =
          (malformedCallers.visitAll ⟨malformedCallers.initialState, empty⟩).value.graph ∧
      ([.malformedInvocation, .malformedInvocation, .symbolicCall, .symbolicCall].foldl
        Metrics.increment {}) = Metrics.record {}
          (malformedCallers.visitAll ⟨malformedCallers.initialState, empty⟩).events := by
  have hClasses : malformedCallers.classes = [malformedCaller "t/A", malformedCaller "t/B"] := rfl
  have hFirst : increments malformedCallers (malformedCaller "t/A") =
      [.malformedInvocation, .symbolicCall] := rfl
  have hSecond : increments malformedCallers (malformedCaller "t/B") =
      [.malformedInvocation, .symbolicCall] := rfl
  have hWorkers : malformedCallers.classes.map (increments malformedCallers) =
      [[.malformedInvocation, .symbolicCall], [.malformedInvocation, .symbolicCall]] := by
    rw [hClasses, List.map_cons, List.map_cons, List.map_nil, hFirst, hSecond]
  have hOrder : Interleaving (malformedCallers.classes.map (increments malformedCallers))
      [.malformedInvocation, .malformedInvocation, .symbolicCall, .symbolicCall] := by
    rw [hWorkers]
    exact .step (i := 0) rfl (.step (i := 1) rfl (.step (i := 0) rfl (.step (i := 1) rfl
      (.finished (by simp)))))
  have hForgetful : malformedCallers.Forgetful := by
    intro admits hAdmits
    cases hAdmits
  obtain ⟨hGraph, -, hCounters, -⟩ := pipeline_refines_sequential malformedCallers hForgetful
  exact ⟨hForgetful, rfl, hGraph _ rfl, hCounters _ hOrder {}⟩

end CallGraph

end JvmCalls
