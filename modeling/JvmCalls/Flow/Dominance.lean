import JvmCalls.Flow.NodeSet
import JvmCalls.Flow.Successors
import JvmCalls.Journal.Basic
import JvmCalls.Sorted

/-!
Dominance. A node dominates another when every path from the entry to the
other goes through it. The dominators of all nodes are the greatest solution
of one equation for each edge, and a worklist computes them: a node is
visited again whenever the set of its dominators shrinks. Sets only shrink,
so the work ends.
-/
namespace JvmCalls

/-- The dominators of each node, by position. A node that no path has
reached yet has no set, which stands for the set of all nodes. -/
abbrev DominatorSets := Array (Option NodeSet)

namespace DominatorSets

/-- The number of nodes that are not reached. -/
def unreached (sets : List (Option NodeSet)) : Nat := sets.countP Option.isNone

/-- The sets of all reached nodes, added up as numbers. -/
def weight : List (Option NodeSet) → Nat
  | [] => 0
  | s :: rest => (s.map NodeSet.bits).getD 0 + weight rest

/-- What an edge leaves of the dominators of its target. `none` means no
change. -/
def refine? (source target : Option NodeSet) (i : Nat) : Option NodeSet :=
  match source, target with
  | some s, some t =>
    let meet := (t.inter s).insert i
    if meet.bits < t.bits then some meet else none
  | some s, none => some (s.insert i)
  | none, _ => none

/-- Follows an edge between two positions. `none` means that nothing
changes. -/
def relax? (sets : DominatorSets) (source target : Nat) : Option DominatorSets :=
  match sets[source]?, sets[target]? with
  | some s, some t =>
    (refine? s t target).map fun refined => sets.setIfInBounds target (some refined)
  | _, _ => none

/-- One collection of sets is nearer to the solution than another: it
reaches more nodes, or as many with smaller sets. -/
def Nearer (new old : DominatorSets) : Prop :=
  unreached new.toList < unreached old.toList ∨
    unreached new.toList = unreached old.toList ∧ weight new.toList < weight old.toList

theorem Nearer.trans {a b c : DominatorSets} (hab : Nearer a b) (hbc : Nearer b c) :
    Nearer a c := by
  unfold Nearer at *
  omega

/-- A node that is given a set is reached from then on. -/
theorem unreached_set {l : List (Option NodeSet)} {i : Nat} {t : Option NodeSet}
    (new : NodeSet) (h : l[i]? = some t) :
    unreached (l.set i (some new)) + (if t.isNone then 1 else 0) = unreached l := by
  induction l generalizing i with
  | nil => simp at h
  | cons head tail ih =>
      cases i with
      | zero =>
          simp only [List.getElem?_cons_zero, Option.some.injEq] at h
          subst h
          cases head <;> simp [unreached]
      | succ i =>
          simp only [List.getElem?_cons_succ] at h
          have hTail := ih h
          simp only [List.set_cons_succ, unreached, List.countP_cons] at hTail ⊢
          omega

/-- The weight changes by the two sets of the node, the old one and the new
one. -/
theorem weight_set {l : List (Option NodeSet)} {i : Nat} {t : Option NodeSet}
    (new : NodeSet) (h : l[i]? = some t) :
    weight (l.set i (some new)) + (t.map NodeSet.bits).getD 0 = weight l + new.bits := by
  induction l generalizing i with
  | nil => simp at h
  | cons head tail ih =>
      cases i with
      | zero =>
          simp only [List.getElem?_cons_zero, Option.some.injEq] at h
          subst h
          simp only [List.set_cons_zero, weight, Option.map_some, Option.getD_some]
          omega
      | succ i =>
          simp only [List.getElem?_cons_succ] at h
          have hTail := ih h
          simp only [List.set_cons_succ, weight] at hTail ⊢
          omega

/-- An edge that changes the sets brings them nearer to the solution. -/
theorem nearer_of_relax? {sets new : DominatorSets} {source target : Nat}
    (h : relax? sets source target = some new) : Nearer new sets := by
  unfold relax? at h
  split at h
  · rename_i s t hSource hTarget
    obtain ⟨refined, hRefine, rfl⟩ := Option.map_eq_some_iff.mp h
    have hList : sets.toList[target]? = some t := by simpa using hTarget
    have hUnreached := unreached_set refined hList
    have hWeight := weight_set refined hList
    unfold Nearer
    rw [Array.toList_setIfInBounds]
    unfold refine? at hRefine
    split at hRefine
    · simp only at hRefine
      split at hRefine
      · simp only [Option.some.injEq] at hRefine
        subst hRefine
        simp only [Option.isNone_some, Bool.false_eq_true, if_false, Option.map_some,
          Option.getD_some] at hUnreached hWeight
        omega
      · simp at hRefine
    · simp only [Option.isNone_none, if_true] at hUnreached
      omega
    · simp at hRefine
  · simp at h

end DominatorSets

/-- The dominators of the nodes of one method. Instructions have the
positions of their order in the code, the entry and the exit come after
them. -/
structure DominatorTable where
  addresses : List Address
  sets : DominatorSets
deriving Repr, Inhabited

namespace FlowNode

/-- The position of an instruction, the last one where several stand at one
address. -/
def position? (addresses : List Address) (a : Address) : Option Nat :=
  (addresses.zipIdx.findRev? fun entry => entry.1 == a).map Prod.snd

def entryPosition (addresses : List Address) : Nat := addresses.length

def exitPosition (addresses : List Address) : Nat := addresses.length + 1

def index (addresses : List Address) : FlowNode → Except FlowError Nat
  | entry => .ok (entryPosition addresses)
  | exit => .ok (exitPosition addresses)
  | instr a =>
    match position? addresses a with
    | some i => .ok i
    | none => .error (.instructionNotFound a)

def ofIndex (addresses : List Address) (i : Nat) : FlowNode :=
  match addresses[i]? with
  | some a => .instr a
  | none => if i = entryPosition addresses then .entry else .exit

end FlowNode

namespace Code

/-- The instructions reached by an exception thrown at an address, unless
exceptions are ignored. -/
def handlerTargets (c : Code) (ignoreExceptions : Bool) (a : Address) : List Address :=
  if ignoreExceptions then [] else (c.exceptionBranches a).map Prod.snd

/-- The addresses that an instruction leads to, in ascending order: its
successors and the handlers of exceptions that the successors may throw. -/
def flowTargets (c : Code) (ignoreExceptions : Bool)
    (successors : List (Branch × Option Address)) : List Address :=
  sortedDistinct (fun a b => decide (a ≤ b))
    ((successors.filterMap Prod.snd).flatMap fun a =>
      a :: c.handlerTargets ignoreExceptions a)

/-- The addresses that the entry of the method leads to. -/
def entryTargets (c : Code) (ignoreExceptions : Bool) : List Address :=
  match c.instrs with
  | [] => []
  | first :: _ => first.address :: c.handlerTargets ignoreExceptions first.address

end Code

/-- The state of the computation: the sets, and the instructions whose edges
are still to be followed, the next one first. -/
structure DominatorWork where
  sets : DominatorSets
  pending : List Address
deriving Repr, Inhabited

/-- Why a computation has stopped, and the sets that it had by then. -/
structure FlowFailure where
  error : FlowError
  sets : DominatorSets
deriving Repr

namespace DominatorWork

/-- Follows the edges from one position to each target. A target whose set
changes is to be visited. -/
def spread (addresses : List Address) (source : Nat) :
    List Address → DominatorWork → Except FlowFailure DominatorWork
  | [], w => .ok w
  | target :: rest, w =>
    match FlowNode.position? addresses target with
    | none => .error ⟨.instructionNotFound target, w.sets⟩
    | some i =>
      match w.sets.relax? source i with
      | some sets => spread addresses source rest ⟨sets, target :: w.pending⟩
      | none => spread addresses source rest w

/-- Follows the edges of an instruction. The edge to the exit comes
first. -/
def visit (c : Code) (ignoreExceptions : Bool) (p : PlacedInstr) (source : Nat)
    (w : DominatorWork) : Except FlowFailure DominatorWork :=
  match c.successors p with
  | .error e => .error ⟨e, w.sets⟩
  | .ok successors =>
    let sets :=
      if successors.any (·.2.isNone) then
        (w.sets.relax? source (FlowNode.exitPosition c.addresses)).getD w.sets
      else w.sets
    spread c.addresses source (c.flowTargets ignoreExceptions successors) ⟨sets, w.pending⟩

/-- Nothing is left to do that was not there before, or the sets are nearer
to the solution. -/
def Progress (new old : DominatorWork) : Prop :=
  new = old ∨ DominatorSets.Nearer new.sets old.sets

/-- Following edges is progress: only an edge that changes the sets makes an
instruction wait. -/
theorem spread_progress {addresses : List Address} {source : Nat} {targets : List Address}
    {w new : DominatorWork} (h : spread addresses source targets w = .ok new) :
    Progress new w := by
  induction targets generalizing w with
  | nil =>
      simp only [spread, Except.ok.injEq] at h
      exact Or.inl h.symm
  | cons target rest ih =>
      rw [spread] at h
      split at h
      · simp at h
      · split at h
        · rename_i sets hRelax
          have hStep := DominatorSets.nearer_of_relax? hRelax
          rcases ih h with hSame | hNearer
          · rw [hSame]
            exact Or.inr hStep
          · exact Or.inr (hNearer.trans hStep)
        · exact ih h

/-- A visit is progress, the edge to the exit included. -/
theorem visit_progress {c : Code} {ignoreExceptions : Bool} {p : PlacedInstr} {source : Nat}
    {w new : DominatorWork} (h : visit c ignoreExceptions p source w = .ok new) :
    Progress new w := by
  unfold visit at h
  cases hSuccessors : c.successors p with
  | error e => simp [hSuccessors] at h
  | ok successors =>
      simp only [hSuccessors] at h
      have hSpread := spread_progress h
      split at hSpread
      · cases hRelax : w.sets.relax? source (FlowNode.exitPosition c.addresses) with
        | none =>
            rw [hRelax] at hSpread
            exact hSpread
        | some sets =>
            rw [hRelax, Option.getD_some] at hSpread
            have hStep := DominatorSets.nearer_of_relax? hRelax
            rcases hSpread with hSame | hNearer
            · rw [hSame]
              exact Or.inr hStep
            · exact Or.inr (DominatorSets.Nearer.trans hNearer hStep)
      · exact hSpread

/-- Visits pending instructions until none is left. The journal names each
visited instruction. -/
def run (c : Code) (ignoreExceptions : Bool) (w : DominatorWork) :
    Traced (Except FlowFailure DominatorSets) :=
  match w with
  | ⟨sets, []⟩ => ⟨.ok sets, []⟩
  | ⟨sets, a :: rest⟩ =>
    match FlowNode.position? c.addresses a, c.instrAt a with
    | none, _ => ⟨.error ⟨.instructionNotFound a, sets⟩, []⟩
    | some _, .error e => ⟨.error ⟨.code e, sets⟩, []⟩
    | some source, .ok p =>
      let visited := Event.logged .trace ("dominators: visiting " ++ p.render)
      match _h : visit c ignoreExceptions p source ⟨sets, rest⟩ with
      | .error e => ⟨.error e, [visited]⟩
      | .ok next =>
        let outcome := run c ignoreExceptions next
        ⟨outcome.value, visited :: outcome.events⟩
termination_by
  (DominatorSets.unreached w.sets.toList, DominatorSets.weight w.sets.toList, w.pending.length)
decreasing_by
  rcases visit_progress _h with hSame | hNearer
  · subst hSame
    exact Prod.Lex.right _ (Prod.Lex.right _ (by simp))
  · rcases hNearer with hReached | ⟨hReached, hWeight⟩
    · exact Prod.Lex.left _ _ hReached
    · simp only at hReached
      rw [hReached]
      exact Prod.Lex.right _ (Prod.Lex.left _ _ hWeight)

end DominatorWork

/-- Only the entry is reached, and it dominates itself. -/
def DominatorTable.initialSets (addresses : List Address) : DominatorSets :=
  (Array.replicate (addresses.length + 2) none).setIfInBounds (FlowNode.entryPosition addresses)
    (some (NodeSet.empty.insert (FlowNode.entryPosition addresses)))

/-- The work that the edges of the entry make. -/
def DominatorWork.start (c : Code) (ignoreExceptions : Bool) : Except FlowFailure DominatorWork :=
  spread c.addresses (FlowNode.entryPosition c.addresses) (c.entryTargets ignoreExceptions)
    ⟨DominatorTable.initialSets c.addresses, []⟩

namespace DominatorTable

/-- The dominators of every node of the code. -/
def ofCode (c : Code) (ignoreExceptions : Bool) : Traced (Except FlowFailure DominatorTable) :=
  match DominatorWork.start c ignoreExceptions with
  | .error e => return .error e
  | .ok work => do
    let outcome ← work.run c ignoreExceptions
    return outcome.map fun sets => ⟨c.addresses, sets⟩

/-- The dominators of a node that is reached. -/
def reachedSet (t : DominatorTable) (node : FlowNode) : Except FlowError NodeSet := do
  let i ← node.index t.addresses
  match t.sets[i]? with
  | some (some s) => return s
  | _ => throw (.nodeNotReached node)

end DominatorTable

/-- A calculator of dominators. It remembers the method that it analysed
last, unless that analysis failed, and in both cases the sets that were
computed. Sets of an analysis that failed are not complete, so no question
is answered unless there is a method. -/
structure Dominators where
  ignoreExceptions : Bool
  method? : Option MethodSignature := none
  results : DominatorTable := ⟨[], #[]⟩
deriving Repr, Inhabited

namespace Dominators

/-- A calculator that has not analysed any method. -/
def new (ignoreExceptions : Bool) : Dominators where
  ignoreExceptions := ignoreExceptions

@[simp] theorem ignoreExceptions_new (ignoreExceptions : Bool) :
    (new ignoreExceptions).ignoreExceptions = ignoreExceptions := rfl

/-- Analyses a method. Nothing remains of the analysis before it. -/
def analyze (d : Dominators) (signature : MethodSignature) (c : Code) :
    Traced (Except FlowError Unit × Dominators) := do
  Traced.log .debug ("computing dominators of " ++ signature.render)
  match ← DominatorTable.ofCode c d.ignoreExceptions with
  | .ok table => return (.ok (), { d with method? := some signature, results := table })
  | .error e =>
    return (.error e.error, { d with method? := none, results := ⟨c.addresses, e.sets⟩ })

/-- The sets of the method that was analysed last, asked for because of a
node. -/
def table (d : Dominators) (node : FlowNode) : Except FlowError DominatorTable :=
  match d.method? with
  | some _ => .ok d.results
  | none => .error (.notAnalyzed node)

def isReached (d : Dominators) (node : FlowNode) : Bool :=
  match d.table node with
  | .ok table => (table.reachedSet node).isOk
  | .error _ => false

/-- Whether one node dominates another, which must be reached. -/
def dominates (d : Dominators) (dominator node : FlowNode) : Except FlowError Bool := do
  let table ← d.table node
  let set ← table.reachedSet node
  let i ← dominator.index table.addresses
  return set.contains i

/-- Whether an instruction is on every path to the exit. Where the exit is
not reached no instruction is. -/
def dominatesExit (d : Dominators) (a : Address) : Except FlowError Bool := do
  let table ← d.table .exit
  match table.reachedSet .exit with
  | .error _ => return false
  | .ok set =>
    let i ← FlowNode.index table.addresses (.instr a)
    return set.contains i

/-- The dominators of a node: instructions by address, then entry and
exit. -/
def dominatorsOf (d : Dominators) (node : FlowNode) : Except FlowError (List FlowNode) := do
  let table ← d.table node
  let set ← table.reachedSet node
  return (set.toList (table.addresses.length + 2)).map (FlowNode.ofIndex table.addresses)

end Dominators

end JvmCalls
