import JvmCalls.CallGraph.Call
import JvmCalls.Journal.Counter

/-!
The journal of an analysis: all that it lets the outside see while it runs,
in order. A traced computation has a value and the events that led to it, so
what is counted and logged is a consequence of the same definition as the
result.
-/
namespace JvmCalls

/-- Severities of log messages, the most severe first. -/
inductive Level where
  | warn | info | debug | trace
deriving DecidableEq, Repr

def Level.rank : Level → Nat
  | warn => 0
  | info => 1
  | debug => 2
  | trace => 3

def Level.render : Level → String
  | warn => "WARN"
  | info => "INFO"
  | debug => "DEBUG"
  | trace => "TRACE"

/-- What the outside can see of a resolution while it runs. -/
inductive Event where
  | counted (counter : Counter)
  | logged (level : Level) (message : String)
  /-- The pacing hook was asked about a method. -/
  | asked (owner : ClassFile) (method : MethodInfo)
  /-- A visitor, known by the order of registration, was shown a call. -/
  | notified (visitor : Nat) (call : Call)
deriving Inhabited

namespace Event

def counter? : Event → Option Counter
  | counted c => some c
  | _ => none

/-- The message of a log entry that is at least as severe as `level`. Other
events have none. -/
def message? (level : Level) : Event → Option (Level × String)
  | logged l message => if l.rank ≤ level.rank then some (l, message) else none
  | _ => none

def asked? : Event → Option (ClassFile × MethodInfo)
  | asked owner method => some (owner, method)
  | _ => none

def notified? : Event → Option (Nat × Call)
  | notified visitor call => some (visitor, call)
  | _ => none

end Event

/-- The counters after a journal. Only increments matter, in any order. -/
def Metrics.record (m : Metrics) (events : List Event) : Metrics :=
  (events.filterMap Event.counter?).foldl Metrics.increment m

/-- A value and the events that led to it. Nothing else happens on the
way. -/
structure Traced (α : Type) where
  value : α
  events : List Event := []
deriving Inhabited

namespace Traced

instance : Monad Traced where
  pure a := ⟨a, []⟩
  bind x f := let y := f x.value; ⟨y.value, x.events ++ y.events⟩

/-- A computation that does nothing but to let one event be seen. -/
def emit (e : Event) : Traced Unit := ⟨(), [e]⟩

def emitAll (events : List Event) : Traced Unit := ⟨(), events⟩

def count (c : Counter) : Traced Unit := emit (.counted c)

def log (level : Level) (message : String) : Traced Unit := emit (.logged level message)

/-- All that a traced computation gives on the members of a list, in order.
No member sees what the computation did on another one. -/
def gather {α β : Type} (l : List α) (f : α → Traced (List β)) : Traced (List β) :=
  let results := l.map f
  ⟨results.flatMap value, results.flatMap events⟩

/-- The computation with all events but those of counters left out. Where
there is no common order of events, these still have a meaning. -/
def countsOnly {α : Type} (x : Traced α) : Traced α :=
  ⟨x.value, x.events.filter fun e => e.counter?.isSome⟩

@[simp] theorem value_pure {α : Type} (a : α) : (pure a : Traced α).value = a := rfl

@[simp] theorem events_pure {α : Type} (a : α) : (pure a : Traced α).events = [] := rfl

@[simp] theorem value_bind {α β : Type} (x : Traced α) (f : α → Traced β) :
    (x >>= f).value = (f x.value).value := rfl

@[simp] theorem events_bind {α β : Type} (x : Traced α) (f : α → Traced β) :
    (x >>= f).events = x.events ++ (f x.value).events := rfl

@[simp] theorem value_countsOnly {α : Type} (x : Traced α) : x.countsOnly.value = x.value := rfl

theorem value_gather {α β : Type} (l : List α) (f : α → Traced (List β)) :
    (gather l f).value = l.flatMap fun a => (f a).value := by
  simp [gather, List.flatMap_map]

theorem events_gather {α β : Type} (l : List α) (f : α → Traced (List β)) :
    (gather l f).events = l.flatMap fun a => (f a).events := by
  simp [gather, List.flatMap_map]

end Traced

end JvmCalls
