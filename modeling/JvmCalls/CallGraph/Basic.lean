import Std.Data.HashMap
import JvmCalls.CallGraph.Call
import JvmCalls.Reach
import JvmCalls.Sorted

/-!
Call graphs. The vertices are method signatures in the order of their first
use, the edges are calls in the order of their addition. One call may be
there several times.
-/
namespace JvmCalls

/-- A call between two methods, by their positions. -/
structure CallEdge where
  source : Nat
  target : Nat
  call : Call
deriving Inhabited

/-- An edge between positions that are kept, in terms of their new
numbers. -/
def CallEdge.renumber? (kept : List Nat) (e : CallEdge) : Option CallEdge := do
  let source ← kept.findIdx? (· == e.source)
  let target ← kept.findIdx? (· == e.target)
  return ⟨source, target, e.call⟩

/-- A graph of calls. `index` finds the position of a method without a
search. Whatever adds a method keeps it in step with `methods`. -/
structure CallGraph where
  methods : Array MethodSignature := #[]
  edges : Array CallEdge := #[]
  index : Std.HashMap MethodSignature Nat := {}
deriving Inhabited

namespace CallGraph

def empty : CallGraph := {}

/-- The position of a method, if calls of the graph start or end there. -/
def find? (g : CallGraph) (s : MethodSignature) : Option Nat := g.index[s]?

def contains (g : CallGraph) (s : MethodSignature) : Bool := (g.find? s).isSome

/-- The position of a method, which is added unless it is there. -/
def intern (g : CallGraph) (s : MethodSignature) : Nat × CallGraph :=
  match g.find? s with
  | some i => (i, g)
  | none =>
    (g.methods.size,
      { g with methods := g.methods.push s, index := g.index.insert s g.methods.size })

/-- Adds a call. The caller is added before the target. -/
def add (g : CallGraph) (c : Call) : CallGraph :=
  let (source, g) := g.intern c.callerSignature
  let (target, g) := g.intern c.targetSignature
  { g with edges := g.edges.push ⟨source, target, c⟩ }

/-- The calls in the order of their addition. A call that was added twice is
there twice. -/
def calls (g : CallGraph) : List Call := g.edges.toList.map CallEdge.call

@[simp] theorem edges_intern (g : CallGraph) (s : MethodSignature) :
    (g.intern s).2.edges = g.edges := by
  unfold intern
  split
  · rfl
  · rfl

@[simp] theorem calls_add (g : CallGraph) (c : Call) : (g.add c).calls = g.calls ++ [c] := by
  simp [add, calls]

/-- Adds calls one after the other. Methods are numbered in the order in
which these calls mention them. -/
def addAll (g : CallGraph) (calls : List Call) : CallGraph := calls.foldl add g

/-- Adding calls keeps those that are there and loses none of the new
ones. -/
@[simp] theorem calls_addAll (g : CallGraph) (l : List Call) :
    (g.addAll l).calls = g.calls ++ l := by
  induction l generalizing g with
  | nil => simp [addAll]
  | cons c rest ih =>
      rw [addAll, List.foldl_cons, ← addAll, ih, calls_add, List.append_assoc]
      rfl

theorem addAll_append (g : CallGraph) (l k : List Call) :
    g.addAll (l ++ k) = (g.addAll l).addAll k :=
  List.foldl_append

/-- Adds the calls of another graph in their order. Methods of the other
graph get new numbers. -/
def merge (g other : CallGraph) : CallGraph := g.addAll other.calls

@[simp] theorem calls_merge (g other : CallGraph) :
    (g.merge other).calls = g.calls ++ other.calls :=
  calls_addAll g other.calls

/-- The calls that have a method at the given end, in the order of their
addition. -/
def callsAt (g : CallGraph) (side : CallEdge → Nat) (s : MethodSignature) : List Call :=
  match g.find? s with
  | some i => (g.edges.toList.filter fun e => side e == i).map CallEdge.call
  | none => []

/-- The calls that a method makes. -/
def callsFrom (g : CallGraph) (s : MethodSignature) : List Call := g.callsAt CallEdge.source s

/-- The calls that go to a method. -/
def callsTo (g : CallGraph) (s : MethodSignature) : List Call := g.callsAt CallEdge.target s

def callCount (g : CallGraph) : Nat := g.edges.size
def methodCount (g : CallGraph) : Nat := g.methods.size
def concreteCount (g : CallGraph) : Nat := g.calls.countP Call.isConcrete
def symbolicCount (g : CallGraph) : Nat := g.calls.countP fun c => !c.isConcrete

/-- All positions of the graph, which bound every walk over it. -/
def positions (g : CallGraph) : List Nat := List.range g.methods.size

/-- The positions of the methods that a method calls. -/
def targets (g : CallGraph) (i : Nat) : List Nat :=
  (g.edges.toList.filter fun e => e.source == i).map CallEdge.target

/-- The positions of the methods that call a method. -/
def sources (g : CallGraph) (i : Nat) : List Nat :=
  (g.edges.toList.filter fun e => e.target == i).map CallEdge.source

/-- The methods that a bounded walk from a method enters, in ascending
order. The method itself is not among them. -/
def walk (g : CallGraph) (next : Nat → List Nat) (s : MethodSignature) (bound : Option Nat) :
    List MethodSignature :=
  match g.find? s with
  | some i =>
    let found := Reach.within next bound (g.positions.erase i) [(i, 0)]
    sortedDistinct MethodSignature.le (found.filterMap fun j => g.methods[j]?)
  | none => []

/-- The methods that call the given one, directly or not, at most `bound`
calls away. -/
def callersOf (g : CallGraph) (s : MethodSignature) (bound : Option Nat) :
    List MethodSignature :=
  g.walk g.sources s bound

/-- The methods that the given one calls, directly or not, at most `bound`
calls away. -/
def calleesOf (g : CallGraph) (s : MethodSignature) (bound : Option Nat) :
    List MethodSignature :=
  g.walk g.targets s bound

/-- The positions of the methods from which calls lead to a matching
method. -/
def leadingTo (g : CallGraph) (p : MethodSignature → Bool) : List Nat :=
  Reach.collect g.sources g.positions (g.positions.filter fun i => g.methods[i]?.any p)

/-- The graph of the kept positions, renumbered in order. The index is made
anew. -/
def restrict (g : CallGraph) (kept : List Nat) : CallGraph :=
  let positions := g.positions.filter kept.contains
  let methods := positions.filterMap fun i => g.methods[i]?
  { methods := methods.toArray
    edges := (g.edges.toList.filterMap (CallEdge.renumber? positions)).toArray
    index := Std.HashMap.ofList methods.zipIdx }

/-- The methods from which calls lead to a matching method, and the calls
among them. -/
def filter (g : CallGraph) (p : MethodSignature → Bool) : CallGraph :=
  g.restrict (g.leadingTo p)

end CallGraph

end JvmCalls
