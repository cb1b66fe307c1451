import JvmCalls.Proofs.Except
import JvmCalls.Proofs.Flow.Exit

/-! When an analysis of dominators fails, and what is left of it then. An
edge that leads out of the code makes the analysis fail if a path from the
entry leads to where that edge starts, and nothing else does: the worklist
visits every such instruction and no other. A calculator whose last analysis
failed answers no question. The keys of a table switch have no part in this,
as long as sums wrap. Where sums are checked, it is told which keys fail. -/
namespace JvmCalls

namespace Instr

/-- A sum that is checked: there is none past the ends of the range. Where
sums wrap, there always is one. -/
def checkedSum? (a b : Int32) : Option Int32 :=
  if -2147483648 ≤ a.toInt + b.toInt ∧ a.toInt + b.toInt ≤ 2147483647 then some (a + b) else none

/-- The cases of a table switch by checked sums, where each key is made from
the one before. The key after the last one is made as well. The branches of
the switch are listed in this way. -/
def countedCases? : Int32 → List Int32 → Option (List (Int32 × Int32))
  | _, [] => some []
  | key, offset :: rest => do
    let next ← checkedSum? key 1
    let cases ← countedCases? next rest
    return (key, offset) :: cases

/-- The cases of a table switch by checked sums, where each key is made from
the first one. The first `i` cases are left out. The switch is rendered in
this way. -/
def summedCases? (low : Int32) (i : Nat) : List Int32 → Option (List (Int32 × Int32))
  | [] => some []
  | offset :: rest => do
    let key ← checkedSum? low (Int32.ofNat i)
    let cases ← summedCases? low (i + 1) rest
    return (key, offset) :: cases

/-- A key that is higher than the first one by a number of the range. -/
theorem checkedSum?_ofNat (low : Int32) {i : Nat} (hSmall : i < 2147483648) :
    checkedSum? low (Int32.ofNat i) =
      if low.toInt + i ≤ 2147483647 then some (low + Int32.ofNat i) else none := by
  have hLow := low.le_toInt
  have hToInt : (Int32.ofNat i).toInt = i := Int32.toInt_ofNat_of_lt hSmall
  rw [checkedSum?, hToInt]
  apply if_congr _ rfl rfl
  omega

/-- The keys of a table switch are counted up from the lowest, wrapping at
the end of the range. -/
theorem tableCases_cons (low offset : Int32) (rest : List Int32) :
    tableCases low (offset :: rest) = (low, offset) :: tableCases (low + 1) rest := by
  unfold tableCases
  rw [List.zipIdx_cons, List.map_cons, List.zipIdx_succ, List.map_map]
  refine congrArg₂ _ (by simp) (List.map_congr_left ?_)
  rintro ⟨o, i⟩ -
  simp [Int32.ofNat_add, Int32.add_assoc, Int32.add_comm (Int32.ofNat i)]

/-- Counting from key to key fails just if the key after the last one is out
of range, though no case has it. Else it gives the keys that wrap. -/
theorem countedCases?_eq (low : Int32) (offsets : List Int32) :
    countedCases? low offsets =
      if offsets = [] ∨ low.toInt + offsets.length ≤ 2147483647 then some (tableCases low offsets)
      else none := by
  induction offsets generalizing low with
  | nil => rfl
  | cons offset rest ih =>
      have hNext : checkedSum? low 1 =
          if low.toInt + 1 ≤ 2147483647 then some (low + 1) else none :=
        checkedSum?_ofNat low (by decide)
      rw [countedCases?, hNext, tableCases_cons, List.length_cons]
      by_cases hInRange : low.toInt + 1 ≤ 2147483647
      · have hLow := low.le_toInt
        have hToInt : (low + 1).toInt = low.toInt + 1 := by
          rw [Int32.toInt_add, Int32.toInt_one, Int.bmod_eq_of_le (by omega) (by omega)]
        -- If this was the last key, the one after it has just been made.
        have hRest : rest = [] ∨ (low + 1).toInt + rest.length ≤ 2147483647 ↔
            low.toInt + (rest.length + 1 : Nat) ≤ 2147483647 := by
          rw [hToInt, ← List.length_eq_zero_iff]
          omega
        simp only [if_pos hInRange, Option.bind_eq_bind, Option.bind_some, ih, hRest, reduceCtorEq,
          false_or]
        split
        · rfl
        · rfl
      · have hLast : ¬ low.toInt + (rest.length + 1 : Nat) ≤ 2147483647 := by omega
        simp only [if_neg hInRange, if_neg hLast, reduceCtorEq, false_or]
        rfl

/-- Adding to the first key fails just if the last key is out of range. Keys
only grow, so that no key before it can fail. -/
theorem summedCases?_eq (low : Int32) {i : Nat} {offsets : List Int32}
    (hSmall : i + offsets.length ≤ 2147483648) :
    summedCases? low i offsets =
      if offsets = [] ∨ low.toInt + (i + offsets.length : Nat) ≤ 2147483648 then
        some (tableCases (low + Int32.ofNat i) offsets)
      else none := by
  induction offsets generalizing i with
  | nil => rfl
  | cons offset rest ih =>
      rw [List.length_cons] at hSmall ⊢
      rw [summedCases?, checkedSum?_ofNat low (by omega), ih (by omega), tableCases_cons,
        Int32.ofNat_add, Int32.add_assoc]
      by_cases hInRange : low.toInt + i ≤ 2147483647
      · have hRest : rest = [] ∨ low.toInt + (i + 1 + rest.length : Nat) ≤ 2147483648 ↔
            low.toInt + (i + (rest.length + 1) : Nat) ≤ 2147483648 := by
          rw [← List.length_eq_zero_iff]
          omega
        simp only [if_pos hInRange, Option.bind_eq_bind, Option.bind_some, hRest, reduceCtorEq,
          false_or]
        split
        · rfl
        · rfl
      · have hLast : ¬ low.toInt + (i + (rest.length + 1) : Nat) ≤ 2147483648 := by omega
        simp only [if_neg hInRange, if_neg hLast, reduceCtorEq, false_or]
        rfl

end Instr

/-- An edge that starts at the node leads to no instruction of the code. The
target of a branch over the start of the code is not even an address. -/
inductive FlowLeaves (c : Code) (ignoreExceptions : Bool) : FlowNode → Prop where
  | branch {p : PlacedInstr} {b : Branch × Option Address} (hInstr : p ∈ c.instrs)
      (hBranch : b ∈ p.branches) (hTarget : ∀ a, b.2 = some a → a ∉ c.addresses) :
      FlowLeaves c ignoreExceptions (.instr p.address)
  | firstHandler {p : PlacedInstr} {a : Address} (hFollowed : ignoreExceptions = false)
      (hFirst : c.instrs.head? = some p) (hCatches : c.Catches p.address a)
      (hTarget : a ∉ c.addresses) : FlowLeaves c ignoreExceptions .entry
  | branchHandler {p : PlacedInstr} {a b : Address} (hFollowed : ignoreExceptions = false)
      (hInstr : p ∈ c.instrs) (hLeads : p.LeadsTo a) (hCatches : c.Catches a b)
      (hTarget : b ∉ c.addresses) : FlowLeaves c ignoreExceptions (.instr p.address)

/-- An edge out of the code, where its target is an address. Targets without
an address leave the code as well. -/
theorem FlowEdge.leaves {c : Code} {ignoreExceptions : Bool} {u : FlowNode} {a : Address}
    (hEdge : FlowEdge c ignoreExceptions u (.instr a)) (hTarget : a ∉ c.addresses) :
    FlowLeaves c ignoreExceptions u := by
  cases hEdge with
  | first hFirst =>
      exact False.elim (hTarget (List.mem_map_of_mem (List.mem_of_head? hFirst)))
  | firstHandler hFollowed hFirst hCatches =>
      exact .firstHandler hFollowed hFirst hCatches hTarget
  | branch hInstr hLeads =>
      obtain ⟨b, hBranch⟩ := hLeads
      refine .branch hInstr hBranch ?_
      intro a' hSame
      rw [← Option.some.inj hSame]
      exact hTarget
  | branchHandler hFollowed hInstr hLeads hCatches =>
      exact .branchHandler hFollowed hInstr hLeads hCatches hTarget

/-- The errors that report an instruction which is not there. A branch and a
handler report it in two ways. -/
def FlowError.IsInstructionNotFound : FlowError → Prop
  | .instructionNotFound _ => True
  | .branchTargetNotFound _ => True
  | _ => False

namespace Code

variable {c : Code} {p : PlacedInstr}

/-- Where successors are found, every branch leads to an instruction. -/
theorem target_of_successors {l : List (Branch × Option Address)} (h : c.successors p = .ok l)
    {b : Branch × Option Address} (hBranch : b ∈ p.branches) :
    ∃ a ∈ c.addresses, b.2 = some a := by
  by_cases hReturn : p.instr.isReturn = true
  · rw [branches_of_isReturn hReturn] at hBranch
    cases hBranch
  · simp only [successors, hReturn, Bool.false_eq_true, if_false] at h
    obtain ⟨a, hTarget, hFound⟩ := (mapM_checkTarget_ok h).2 b hBranch
    exact ⟨a, isSome_instrAt?_iff.mp hFound, hTarget⟩

/-- Where they are not, the error names the instruction, and one of its
branches leads nowhere. -/
theorem error_of_successors {e : FlowError} (h : c.successors p = .error e) :
    e = .branchTargetNotFound p.address ∧
      ∃ b ∈ p.branches, ∀ a, b.2 = some a → a ∉ c.addresses := by
  unfold successors at h
  split at h
  · cases h
  · obtain ⟨⟨kind, target⟩, hBranch, hError⟩ := exists_of_mapM_error h
    refine ⟨error_of_checkTarget hError, (kind, target), hBranch, ?_⟩
    intro a hTarget hMem
    have hOk : c.checkTarget p.address (kind, target) = .ok (kind, some a) :=
      checkTarget_eq_ok_iff.mpr ⟨a, hTarget, hMem, rfl⟩
    rw [hError] at hOk
    cases hOk

end Code

namespace DominatorSets

/-- The instruction at an address has a set. It is what the analysis has
found out of reachability so far. -/
def Reaches (sets : DominatorSets) (addresses : List Address) (a : Address) : Prop :=
  ∃ i s, FlowNode.position? addresses a = some i ∧ sets[i]? = some (some s)

theorem Reaches.mem {sets : DominatorSets} {addresses : List Address} {a : Address}
    (h : sets.Reaches addresses a) : a ∈ addresses := by
  obtain ⟨i, -, hPosition, -⟩ := h
  exact List.mem_of_getElem? (FlowNode.getElem?_of_position? hPosition)

/-- A path leads to an instruction that has a set. -/
theorem Sound.reachable {c : Code} {ignoreExceptions : Bool} {sets : DominatorSets}
    (hSound : Sound c ignoreExceptions sets) {a : Address} (h : sets.Reaches c.addresses a) :
    FlowReachable c ignoreExceptions (.instr a) := by
  obtain ⟨i, s, hPosition, hSet⟩ := h
  rw [← FlowNode.ofIndex_of_position? hPosition]
  exact hSound.reached i s hSet

end DominatorSets

namespace DominatorWork

/-- What edges change about the instructions that are reached: there are
more of them, and the new ones are to be visited. -/
structure Advances (addresses : List Address) (new w : DominatorWork) : Prop where
  kept : ∀ a, w.sets.Reaches addresses a → new.sets.Reaches addresses a
  waiting : w.pending ⊆ new.pending
  added : ∀ a ∈ new.pending, a ∈ w.pending ∨ new.sets.Reaches addresses a
  found : ∀ a, new.sets.Reaches addresses a → w.sets.Reaches addresses a ∨ a ∈ new.pending

variable {c : Code} {ignoreExceptions : Bool} {addresses : List Address} {source : Nat}
  {targets : List Address} {p : PlacedInstr} {w middle new : DominatorWork} {e : FlowFailure}

theorem Advances.refl : Advances addresses w w where
  kept _ h := h
  waiting := List.Subset.refl _
  added _ h := Or.inl h
  found _ h := Or.inl h

/-- Edges may be followed one after the other, and what was found stays
found. -/
theorem Advances.trans (hSecond : Advances addresses new middle)
    (hFirst : Advances addresses middle w) : Advances addresses new w where
  kept a h := hSecond.kept a (hFirst.kept a h)
  waiting := List.Subset.trans hFirst.waiting hSecond.waiting
  added := by
    intro a hNew
    rcases hSecond.added a hNew with hMiddle | hReached
    · exact (hFirst.added a hMiddle).imp_right (hSecond.kept a)
    · exact Or.inr hReached
  found := by
    intro a hNew
    rcases hSecond.found a hNew with hMiddle | hPending
    · exact (hFirst.found a hMiddle).imp_right (fun h => hSecond.waiting h)
    · exact Or.inr hPending

/-- One edge, where the target is to be visited if it is an instruction. The
exit is reached too, but nothing is visited for it. -/
theorem Advances.of_relax? {j : Nat} {sets : DominatorSets} {pending : List Address}
    (h : w.sets.relax? source j = some sets) (hWaiting : w.pending ⊆ pending)
    (hAdded : ∀ a ∈ pending, a ∈ w.pending ∨ FlowNode.position? addresses a = some j)
    (hTarget : ∀ a, FlowNode.position? addresses a = some j → a ∈ pending) :
    Advances addresses ⟨sets, pending⟩ w := by
  obtain ⟨-, r, -, hNew, -, hOthers, -⟩ := DominatorSets.relax?_eq_some h
  refine ⟨?_, hWaiting, ?_, ?_⟩
  · intro a hReached
    obtain ⟨i, s, hPosition, hSet⟩ := hReached
    by_cases hi : i = j
    · exact ⟨i, r, hPosition, hi ▸ hNew⟩
    · exact ⟨i, s, hPosition, (hOthers i hi).trans hSet⟩
  · intro a hPending
    exact (hAdded a hPending).imp_right (fun hPosition => ⟨j, r, hPosition, hNew⟩)
  · intro a hReached
    obtain ⟨i, s, hPosition, hSet⟩ := hReached
    by_cases hi : i = j
    · exact Or.inr (hTarget a (hi ▸ hPosition))
    · exact Or.inl ⟨i, s, hPosition, (hOthers i hi).symm.trans hSet⟩

/-- An edge that gives its target a new set makes the target wait. This is
the only step in which something new is reached. -/
theorem Advances.push (h : Advances addresses middle w) {sets : DominatorSets} {target : Address}
    {j : Nat} (hPosition : FlowNode.position? addresses target = some j)
    (hRelax : middle.sets.relax? source j = some sets) :
    Advances addresses ⟨sets, target :: middle.pending⟩ w := by
  refine Advances.trans (.of_relax? hRelax (List.subset_cons_self _ _) ?_ ?_) h
  · intro a hPending
    rcases List.mem_cons.mp hPending with rfl | hOld
    · exact Or.inr hPosition
    · exact Or.inl hOld
  · intro a hSame
    have hFirst := FlowNode.getElem?_of_position? hSame
    rw [FlowNode.getElem?_of_position? hPosition, Option.some.injEq] at hFirst
    exact hFirst ▸ List.mem_cons_self

/-- Following the edges of one instruction loses nothing that was
reached. -/
theorem spread_advances (h : spread addresses source targets w = .ok new) :
    Advances addresses new w :=
  spread_invariant (P := fun middle => Advances addresses middle w) h .refl
    fun _ _ _ _ hPosition hRelax hSoFar => hSoFar.push hPosition hRelax

/-- A visit reaches more instructions, and the new ones wait. Whatever
waited before is still waiting. -/
theorem visit_advances (h : visit c ignoreExceptions p source w = .ok new) :
    Advances c.addresses new w := by
  refine visit_invariant (P := fun middle => Advances c.addresses middle w) h .refl ?_
    (fun _ _ _ _ hPosition hRelax hSoFar => hSoFar.push hPosition hRelax)
  -- No instruction has the position of the exit, so nothing waits for its set.
  intro sets hRelax
  refine .of_relax? hRelax (List.Subset.refl _) (fun a hPending => Or.inl hPending) ?_
  intro a hPosition
  have hBound := FlowNode.lt_of_position? hPosition
  simp [FlowNode.exitPosition] at hBound

theorem exists_successors_of_visit (h : visit c ignoreExceptions p source w = .ok new) :
    ∃ l, c.successors p = .ok l := by
  unfold visit at h
  cases hSuccessors : c.successors p with
  | error e => simp [hSuccessors] at h
  | ok l => exact ⟨l, rfl⟩

/-- Edges are followed until one leads to no instruction, which is the one
that is reported. -/
theorem spread_error (h : spread addresses source targets w = .error e) :
    ∃ a ∈ targets, a ∉ addresses ∧ e.error = .instructionNotFound a := by
  induction targets generalizing w with
  | nil => cases h
  | cons target rest ih =>
      rw [spread] at h
      cases hPosition : FlowNode.position? addresses target with
      | none =>
          simp only [hPosition, Except.error.injEq] at h
          refine ⟨target, List.mem_cons_self, ?_, by rw [← h]⟩
          intro hMem
          obtain ⟨i, hFound⟩ := FlowNode.exists_position?_of_mem hMem
          rw [hPosition] at hFound
          cases hFound
      | some j =>
          have hRest : ∃ middle, spread addresses source rest middle = .error e := by
            simp only [hPosition] at h
            split at h
            · exact ⟨_, h⟩
            · exact ⟨_, h⟩
          obtain ⟨middle, hRest⟩ := hRest
          obtain ⟨a, hMem, hLeaves⟩ := ih hRest
          exact ⟨a, List.mem_cons_of_mem target hMem, hLeaves⟩

/-- A visit fails only at an instruction from which an edge leads out of the
code. The error tells that an instruction is missing, be it the target of a
branch or a handler. -/
theorem visit_error (hNodup : c.addresses.Nodup) (hInstr : p ∈ c.instrs)
    (h : visit c ignoreExceptions p source w = .error e) :
    e.error.IsInstructionNotFound ∧ FlowLeaves c ignoreExceptions (.instr p.address) := by
  cases hSuccessors : c.successors p with
  | error e' =>
      simp only [visit, hSuccessors, Except.error.injEq] at h
      obtain ⟨rfl, b, hBranch, hTarget⟩ := Code.error_of_successors hSuccessors
      exact ⟨h ▸ trivial, .branch hInstr hBranch hTarget⟩
  | ok l =>
      simp only [visit, hSuccessors] at h
      obtain ⟨a, hMem, hTarget, hError⟩ := spread_error h
      have hEdge := (Code.mem_flowTargets hInstr
        (fun _ hq => Code.eq_of_address_eq hNodup hInstr hq) hSuccessors a).mp hMem
      exact ⟨hError ▸ trivial, hEdge.leaves hTarget⟩

/-- How far an analysis has come: an instruction is to be visited only once
it is reached, and one that is reached and is not to be visited has all its
successors in the code. -/
structure Frontier (c : Code) (w : DominatorWork) : Prop where
  waiting : ∀ a ∈ w.pending, w.sets.Reaches c.addresses a
  expanded : ∀ p ∈ c.instrs, w.sets.Reaches c.addresses p.address →
    p.address ∈ w.pending ∨ ∃ l, c.successors p = .ok l

/-- A visit moves the frontier on: the visited instruction has its
successors in the code, or the visit would have failed. -/
theorem Frontier.visit (hNodup : c.addresses.Nodup) {sets : DominatorSets} {rest : List Address}
    (hFrontier : Frontier c ⟨sets, p.address :: rest⟩) (hInstr : p ∈ c.instrs)
    (h : DominatorWork.visit c ignoreExceptions p source ⟨sets, rest⟩ = .ok new) :
    Frontier c new := by
  have hAdvances := visit_advances h
  constructor
  · intro a hPending
    rcases hAdvances.added a hPending with hOld | hReached
    · exact hAdvances.kept a (hFrontier.waiting a (List.mem_cons_of_mem _ hOld))
    · exact hReached
  · intro q hq hReached
    rcases hAdvances.found q.address hReached with hOld | hPending
    · rcases hFrontier.expanded q hq hOld with hWaiting | hExpanded
      · rcases List.mem_cons.mp hWaiting with hSame | hRest
        · obtain rfl := Code.eq_of_address_eq hNodup hInstr hq hSame
          exact Or.inr (exists_successors_of_visit h)
        · exact Or.inl (hAdvances.waiting hRest)
      · exact Or.inr hExpanded
    · exact Or.inl hPending

/-- A run fails only where a path leads to an edge out of the code. The
instructions to be visited are reached, so a path leads to each of them. -/
theorem run_error (hNodup : c.addresses.Nodup)
    (hSound : DominatorSets.Sound c ignoreExceptions w.sets) (hFrontier : Frontier c w)
    (h : (run c ignoreExceptions w).value = .error e) :
    e.error.IsInstructionNotFound ∧
      ∃ u, FlowReachable c ignoreExceptions u ∧ FlowLeaves c ignoreExceptions u := by
  fun_induction run c ignoreExceptions w with
  | case1 => cases h
  | case2 sets a rest hPosition =>
      obtain ⟨i, -, hFound, -⟩ := hFrontier.waiting a List.mem_cons_self
      rw [hPosition] at hFound
      cases hFound
  | case3 sets a rest source e' hAbsent hPosition =>
      have hMem := (hFrontier.waiting a List.mem_cons_self).mem
      obtain ⟨p, hFound⟩ := Option.isSome_iff_exists.mp (Code.isSome_instrAt?_iff.mpr hMem)
      simp [Code.instrAt, hFound] at hAbsent
  | case4 sets a rest source p hFound hPosition visited e' hVisit =>
      obtain ⟨hInstr, rfl⟩ := Code.of_instrAt hFound
      cases h
      obtain ⟨hError, hLeaves⟩ := visit_error hNodup hInstr hVisit
      exact ⟨hError, _, hSound.reachable (hFrontier.waiting _ List.mem_cons_self), hLeaves⟩
  | case5 sets a rest source p hFound hPosition visited next hVisit outcome ih =>
      obtain ⟨hInstr, rfl⟩ := Code.of_instrAt hFound
      have hFollows := (visit_follows (w := ⟨sets, rest⟩) hNodup hSound hInstr hPosition hVisit).1
      exact ih hFollows.sound (hFrontier.visit hNodup hInstr hVisit) h

/-- At the end of a run all instructions that are reached have been visited,
so that none of them has an edge out of the code. -/
theorem run_frontier (hNodup : c.addresses.Nodup) (hFrontier : Frontier c w)
    {sets : DominatorSets} (h : (run c ignoreExceptions w).value = .ok sets) :
    Frontier c ⟨sets, []⟩ := by
  fun_induction run c ignoreExceptions w with
  | case1 =>
      cases h
      exact hFrontier
  | case2 => cases h
  | case3 => cases h
  | case4 => cases h
  | case5 sets a rest source p hFound hPosition visited next hVisit outcome ih =>
      obtain ⟨hInstr, rfl⟩ := Code.of_instrAt hFound
      exact ih (hFrontier.visit hNodup hInstr hVisit) h

end DominatorWork

namespace DominatorTable

variable {c : Code} {ignoreExceptions : Bool}

/-- No instruction is reached before an edge was followed. -/
theorem not_reaches_initialSets (a : Address) :
    ¬ (initialSets c.addresses).Reaches c.addresses a := by
  intro hReached
  obtain ⟨i, s, hPosition, hSet⟩ := hReached
  have hBound := FlowNode.lt_of_position? hPosition
  have hEntry := (getElem?_initialSets hSet).1
  simp only [FlowNode.entryPosition] at hEntry
  omega

/-- After the start, all instructions that are reached wait. Nothing has
been visited yet. -/
theorem frontier_of_start {work : DominatorWork}
    (h : DominatorWork.start c ignoreExceptions = .ok work) : DominatorWork.Frontier c work := by
  have hAdvances := DominatorWork.spread_advances h
  constructor
  · intro a hPending
    rcases hAdvances.added a hPending with hOld | hReached
    · cases hOld
    · exact hReached
  · intro p _ hReached
    rcases hAdvances.found p.address hReached with hOld | hPending
    · exact False.elim (not_reaches_initialSets _ hOld)
    · exact Or.inl hPending

/-- An analysis fails only where a path leads to an edge out of the code, be
it one of the entry. -/
theorem ofCode_error (hNodup : c.addresses.Nodup) {e : FlowFailure}
    (h : (ofCode c ignoreExceptions).value = .error e) :
    e.error.IsInstructionNotFound ∧
      ∃ u, FlowReachable c ignoreExceptions u ∧ FlowLeaves c ignoreExceptions u := by
  rcases ofCode_eq_error_iff.mp h with hStart | ⟨work, hStart, hRun⟩
  · obtain ⟨a, hMem, hTarget, hError⟩ := DominatorWork.spread_error hStart
    have hEdge := (Code.mem_entryTargets a).mp hMem
    exact ⟨hError ▸ trivial, .entry, .entry, hEdge.leaves hTarget⟩
  · have hSound := (start_follows hNodup hStart).1.sound
    exact DominatorWork.run_error hNodup hSound (frontier_of_start hStart) hRun

/-- Where an analysis succeeds, the instructions that a path leads to are
reached. -/
theorem reaches_of_reachable (hNodup : c.addresses.Nodup) {t : DominatorTable}
    (h : (ofCode c ignoreExceptions).value = .ok t) {a : Address}
    (hReachable : FlowReachable c ignoreExceptions (.instr a)) :
    t.sets.Reaches c.addresses a := by
  obtain ⟨s, hSet⟩ := (reachedSet_ok_iff_reachable hNodup h (.instr a)).mpr hReachable
  obtain ⟨i, hIndex, hSet⟩ := reachedSet_ok.mp hSet
  rw [addresses_of_ofCode h] at hIndex
  exact ⟨i, s, FlowNode.index_instr_eq_ok_iff.mp hIndex, hSet⟩

/-- Where an analysis succeeds, no edge that a path leads to leaves the
code. -/
theorem not_leaves_of_reachable (hNodup : c.addresses.Nodup) {t : DominatorTable}
    (h : (ofCode c ignoreExceptions).value = .ok t) {u : FlowNode}
    (hReachable : FlowReachable c ignoreExceptions u) : ¬ FlowLeaves c ignoreExceptions u := by
  intro hLeaves
  cases hLeaves with
  | @branch p b hInstr hBranch hTarget =>
      obtain ⟨-, work, hStart, hRun⟩ := ofCode_eq_ok_iff.mp h
      have hFrontier := DominatorWork.run_frontier hNodup (frontier_of_start hStart) hRun
      rcases hFrontier.expanded p hInstr (reaches_of_reachable hNodup h hReachable) with
        hPending | ⟨l, hSuccessors⟩
      · cases hPending
      · obtain ⟨a, hMem, hSome⟩ := Code.target_of_successors hSuccessors hBranch
        exact hTarget a hSome hMem
  | firstHandler hFollowed hFirst hCatches hTarget =>
      have hStep := hReachable.step (.firstHandler hFollowed hFirst hCatches)
      exact hTarget (reaches_of_reachable hNodup h hStep).mem
  | branchHandler hFollowed hInstr hLeads hCatches hTarget =>
      have hStep := hReachable.step (.branchHandler hFollowed hInstr hLeads hCatches)
      exact hTarget (reaches_of_reachable hNodup h hStep).mem

/-- An analysis fails exactly where a path leads to an edge out of the code.
Dead code cannot make it fail, whatever it holds. -/
theorem ofCode_error_iff (hNodup : c.addresses.Nodup) :
    (∃ e, (ofCode c ignoreExceptions).value = .error e) ↔
      ∃ u, FlowReachable c ignoreExceptions u ∧ FlowLeaves c ignoreExceptions u := by
  constructor
  · intro hError
    obtain ⟨e, hError⟩ := hError
    exact (ofCode_error hNodup hError).2
  · intro hLeaves
    obtain ⟨u, hReachable, hLeaves⟩ := hLeaves
    cases hTable : (ofCode c ignoreExceptions).value with
    | error e => exact ⟨e, rfl⟩
    | ok t => exact False.elim (not_leaves_of_reachable hNodup hTable hReachable hLeaves)

end DominatorTable

namespace Dominators

variable {d d' : Dominators} {signature : MethodSignature} {c : Code}

/-- A calculator that answers no question. All questions fail alike, and
with the node that they are about. -/
structure Blank (d : Dominators) : Prop where
  method : d.method? = none
  reached : ∀ b, d.isReached b = false
  dominates : ∀ a b, d.dominates a b = .error (.notAnalyzed b)
  dominatorsOf : ∀ b, d.dominatorsOf b = .error (.notAnalyzed b)
  dominatesExit : ∀ a, d.dominatesExit a = .error (.notAnalyzed .exit)

/-- The sets that an analysis has left do not matter, only that it left no
method. -/
theorem blank_of_method (h : d.method? = none) : d.Blank where
  method := h
  reached b := by simp [isReached, table, h]
  dominates a b := by simp [Dominators.dominates, table, h, bind, Except.bind]
  dominatorsOf b := by simp [Dominators.dominatorsOf, table, h, bind, Except.bind]
  dominatesExit a := by simp [Dominators.dominatesExit, table, h, bind, Except.bind]

/-- What is left of an analysis that failed: no method, and the sets up to
the failure. -/
theorem analyze_error {e : FlowError} (h : (d.analyze signature c).value = (.error e, d')) :
    d'.method? = none ∧ (DominatorTable.ofCode c d.ignoreExceptions).value =
      .error ⟨e, d'.results.sets⟩ := by
  unfold analyze at h
  simp only [Traced.value_bind] at h
  cases hTable : (DominatorTable.ofCode c d.ignoreExceptions).value with
  | ok t => simp [hTable] at h
  | error failure =>
      simp only [hTable, Traced.value_pure, Prod.mk.injEq, Except.error.injEq] at h
      obtain ⟨rfl, rfl⟩ := h
      exact ⟨rfl, rfl⟩

/-- The calculator fails where the analysis of the code does, whatever it
knew before. -/
theorem analyze_error_iff :
    (∃ e d', (d.analyze signature c).value = (.error e, d')) ↔
      ∃ failure, (DominatorTable.ofCode c d.ignoreExceptions).value = .error failure := by
  constructor
  · intro hError
    obtain ⟨e, d', hError⟩ := hError
    exact ⟨_, (analyze_error hError).2⟩
  · intro hError
    obtain ⟨failure, hError⟩ := hError
    exact ⟨failure.error, { d with method? := none, results := ⟨c.addresses, failure.sets⟩ },
      by simp [analyze, hError]⟩

/-- Any number of analyses that all fail, each with a method of its own. -/
inductive FailsTo : Dominators → Dominators → Prop where
  | refl (d : Dominators) : FailsTo d d
  | step {d middle d' : Dominators} {signature : MethodSignature} {c : Code} {e : FlowError}
      (prior : FailsTo d middle) (last : (middle.analyze signature c).value = (.error e, d')) :
      FailsTo d d'

/-- A calculator stays without answers through any number of failures.
Nothing of a failed analysis is left behind. -/
theorem FailsTo.blank (h : FailsTo d d') (hBlank : d.Blank) : d'.Blank := by
  induction h with
  | refl => exact hBlank
  | step prior last ih => exact blank_of_method (analyze_error last).1

/-- An analysis fails if and only if a path leads to an edge out of the
code, and then because an instruction is missing. Afterwards the calculator
answers nothing, whatever it knew before, until an analysis succeeds. -/
theorem analyze_fails_iff_leaves (hIncreasing : c.addresses.Pairwise (· < ·)) (d : Dominators)
    (signature : MethodSignature) :
    ((∃ e d', (d.analyze signature c).value = (.error e, d')) ↔
      ∃ u, FlowReachable c d.ignoreExceptions u ∧ FlowLeaves c d.ignoreExceptions u) ∧
    (∀ e d', (d.analyze signature c).value = (.error e, d') →
      e.IsInstructionNotFound ∧ ∀ later, FailsTo d' later → later.Blank) ∧
    ∀ d', (d.analyze signature c).value = (.ok (), d') → d'.method? = some signature := by
  have hNodup : c.addresses.Nodup := hIncreasing.imp Address.ne_of_lt
  refine ⟨analyze_error_iff.trans (DominatorTable.ofCode_error_iff hNodup), ?_, ?_⟩
  · intro e d' hError
    obtain ⟨hMethod, hTable⟩ := analyze_error hError
    exact ⟨(DominatorTable.ofCode_error hNodup hTable).1,
      fun later hLater => hLater.blank (blank_of_method hMethod)⟩
  · intro d' hOk
    exact (analyze_ok hOk).1

end Dominators

/-- Control leaves the code at a jump that only an exception leads to. -/
def strayJump : Code where
  maxStack := 0
  maxLocals := 0
  instrs := [⟨⟨0⟩, .ret .void⟩, ⟨⟨1⟩, .goto (-10)⟩]
  handlers := [⟨⟨0⟩, ⟨1⟩, ⟨1⟩, none⟩]
  lines := []

theorem strayJump_branches {p : PlacedInstr} {b : Branch × Option Address}
    (hInstr : p ∈ strayJump.instrs) (hBranch : b ∈ p.branches) :
    p.address = ⟨1⟩ ∧ b.2 = none := by
  have hCases : p = ⟨⟨0⟩, .ret .void⟩ ∨ p = ⟨⟨1⟩, .goto (-10)⟩ := by
    simpa [strayJump] using hInstr
  rcases hCases with rfl | rfl
  · cases hBranch
  · cases List.mem_singleton.mp hBranch
    exact ⟨rfl, rfl⟩

/-- Without exceptions no path leads to the jump. -/
theorem strayJump_stays {u : FlowNode} (hReachable : FlowReachable strayJump true u) :
    ¬ FlowLeaves strayJump true u := by
  intro hLeaves
  cases hLeaves with
  | firstHandler hFollowed => cases hFollowed
  | branchHandler hFollowed => cases hFollowed
  | @branch p b hInstr hBranch =>
      obtain ⟨nodes, hPath⟩ := hReachable
      rw [(strayJump_branches hInstr hBranch).1] at hPath
      cases hPath with
      | step prior last =>
          generalize hTarget : FlowNode.instr ⟨1⟩ = node at last
          cases last with
          | first hFirst =>
              cases hFirst
              cases hTarget
          | firstHandler hFollowed => cases hFollowed
          | branch hInstr hLeads =>
              obtain ⟨b, hBranch⟩ := hLeads
              cases (strayJump_branches hInstr hBranch).2
          | branchHandler hFollowed => cases hFollowed
          | ret => cases hTarget

/-- The jump is malformed. It makes an analysis fail that follows
exceptions, and a calculator forgets what it knew. An analysis that ignores
them succeeds. -/
theorem strayJump_analyses :
    strayJump.addresses.Pairwise (· < ·) ∧
      (∃ e d', (Dominators.analyze ⟨false, some .unknown, ⟨[], #[]⟩⟩
          (.of "t/A" "f" "()V") strayJump).value = (.error e, d') ∧
        e.IsInstructionNotFound ∧ d'.Blank) ∧
      ∃ d', (Dominators.analyze (.new true) (.of "t/A" "f" "()V") strayJump).value =
        (.ok (), d') ∧ d'.method? = some (.of "t/A" "f" "()V") := by
  have hIncreasing : strayJump.addresses.Pairwise (· < ·) := by decide
  obtain ⟨hFails, hFailed, -⟩ := Dominators.analyze_fails_iff_leaves hIncreasing
    ⟨false, some .unknown, ⟨[], #[]⟩⟩ (.of "t/A" "f" "()V")
  obtain ⟨hFailsIgnoring, -, hSucceeded⟩ := Dominators.analyze_fails_iff_leaves hIncreasing
    (.new true) (.of "t/A" "f" "()V")
  refine ⟨hIncreasing, ?_, ?_⟩
  · have hCatches : strayJump.Catches ⟨0⟩ ⟨1⟩ := ⟨_, List.mem_singleton.mpr rfl, by decide, rfl⟩
    have hReachable : FlowReachable strayJump false (.instr ⟨1⟩) :=
      FlowReachable.entry.step (.firstHandler rfl rfl hCatches)
    have hLeaves : FlowLeaves strayJump false (.instr ⟨1⟩) :=
      .branch (p := ⟨⟨1⟩, .goto (-10)⟩) (b := (.jump, none)) (by decide) (by decide) (by simp)
    obtain ⟨e, d', hError⟩ := hFails.mpr ⟨_, hReachable, hLeaves⟩
    obtain ⟨hMissing, hBlank⟩ := hFailed e d' hError
    exact ⟨e, d', hError, hMissing, hBlank d' (.refl d')⟩
  · cases hOutcome : (Dominators.analyze (.new true) (.of "t/A" "f" "()V") strayJump).value with
    | mk outcome d' =>
        cases outcome with
        | ok => exact ⟨d', rfl, hSucceeded d' hOutcome⟩
        | error e =>
            obtain ⟨u, hReachable, hLeaves⟩ := hFailsIgnoring.mp ⟨e, d', hOutcome⟩
            exact False.elim (strayJump_stays hReachable hLeaves)

end JvmCalls
