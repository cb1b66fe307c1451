import JvmCalls.Proofs.Flow.Relaxation
import Mathlib

/-! The worklist computes dominance exactly. Two facts hold at every moment:
no set has lost a true dominator, and an edge whose target may still have
something to lose starts at a pending instruction. Once nothing is pending,
every member of a set is therefore on every path. -/
namespace JvmCalls

namespace DominatorSets

/-- What holds of the sets at every moment of an analysis. They are always
large enough, and only the edges that are still to be followed make them too
large. -/
structure Sound (c : Code) (ignoreExceptions : Bool) (sets : DominatorSets) : Prop where
  size : sets.size = c.addresses.length + 2
  /-- A node has a set only if a path leads to it. -/
  reached : ∀ (i : Nat) (s : NodeSet), sets[i]? = some (some s) →
    FlowReachable c ignoreExceptions (FlowNode.ofIndex c.addresses i)
  own : ∀ (i : Nat) (s : NodeSet), sets[i]? = some (some s) → s.contains i = true
  /-- No true dominator is missing. -/
  above : ∀ (i : Nat) (s : NodeSet) (k : Nat), sets[i]? = some (some s) →
    k < c.addresses.length + 2 →
    FlowDominates c ignoreExceptions (FlowNode.ofIndex c.addresses k)
      (FlowNode.ofIndex c.addresses i) → s.contains k = true
  /-- The entry has no dominator but itself. -/
  entry : ∃ s, sets[FlowNode.entryPosition c.addresses]? = some (some s) ∧
    ∀ k, s.contains k = true → k = FlowNode.entryPosition c.addresses

/-- The set of the target has nothing more to lose along the edge. If the
source has no set yet, there is nothing to ask. -/
def Settled (sets : DominatorSets) (i j : Nat) : Prop :=
  ∀ s, sets[i]? = some (some s) →
    ∃ t, sets[j]? = some (some t) ∧ ∀ k, t.contains k = true → k = j ∨ s.contains k = true

/-- All edges that start at a position lead to nodes of the code, and are
settled. -/
def Done (c : Code) (ignoreExceptions : Bool) (sets : DominatorSets) (i : Nat) : Prop :=
  ∀ v, (∃ s, sets[i]? = some (some s)) →
    FlowEdge c ignoreExceptions (FlowNode.ofIndex c.addresses i) v →
    ∃ j, v.index c.addresses = .ok j ∧ sets.Settled i j

variable {c : Code} {ignoreExceptions : Bool} {sets new : DominatorSets} {i j : Nat}

/-- A self loop never changes a set, so the source of an effective
relaxation keeps its own. -/
theorem Sound.ne_of_relax? (hSound : Sound c ignoreExceptions sets)
    (h : sets.relax? i j = some new) : i ≠ j := by
  rintro rfl
  obtain ⟨s, r, hSource, -⟩ := relax?_eq_some h
  have hOwn := hSound.own i s hSource
  have hBits := NodeSet.insert_inter_bits (s := s) hOwn
  have hSame : s.bits &&& (s.insert i).bits = s.bits := by
    apply Nat.eq_of_testBit_eq
    intro k
    simp only [NodeSet.insert, Nat.testBit_and, Nat.testBit_or]
    cases s.bits.testBit k <;> simp
  simp [relax?, refine?, hSource, hBits, hSame] at h

/-- Following an edge keeps the sets sound. What the target loses was not in
the set of the source, so that a path through the source avoids it. -/
theorem Sound.relax? (hSound : Sound c ignoreExceptions sets) (hNodup : c.addresses.Nodup)
    (hEdge : FlowEdge c ignoreExceptions (FlowNode.ofIndex c.addresses i)
      (FlowNode.ofIndex c.addresses j))
    (hEntry : j ≠ FlowNode.entryPosition c.addresses) (h : sets.relax? i j = some new) :
    Sound c ignoreExceptions new := by
  obtain ⟨s, r, hSource, hTarget, hSize, hOthers, hMembers⟩ := relax?_eq_some h
  have hBound : j < c.addresses.length + 2 := by
    have := (Array.getElem?_eq_some_iff.mp hTarget).1
    have := hSound.size
    omega
  refine ⟨hSize.trans hSound.size, ?_, ?_, ?_, ?_⟩
  · intro k t hSet
    rcases set_of_relax? hTarget hOthers hSet with ⟨rfl, rfl⟩ | hOld
    · exact (hSound.reached i s hSource).step hEdge
    · exact hSound.reached k t hOld
  · intro k t hSet
    rcases set_of_relax? hTarget hOthers hSet with ⟨rfl, rfl⟩ | hOld
    · exact (hMembers k).mpr (Or.inl rfl)
    · exact hSound.own k t hOld
  · intro k t d hSet hd hDominates
    rcases set_of_relax? hTarget hOthers hSet with ⟨rfl, rfl⟩ | hOld
    · refine (hMembers d).mpr ?_
      rcases hDominates.of_edge hEdge with hSame | hSourceDominated
      · exact Or.inl (FlowNode.ofIndex_inj hNodup hd hBound hSame)
      · exact Or.inr ⟨hSound.above i s d hSource hd hSourceDominated,
          fun old hOld => hSound.above k old d hOld hd hDominates⟩
    · exact hSound.above k t d hOld hd hDominates
  · obtain ⟨entrySet, hSet, hOnly⟩ := hSound.entry
    exact ⟨entrySet, (hOthers _ (Ne.symm hEntry)).trans hSet, hOnly⟩

/-- An edge that changes nothing is settled, as the comparison of numbers
misses no loss. -/
theorem Settled.of_relax?_none (hSound : Sound c ignoreExceptions sets)
    (hBound : j < c.addresses.length + 2) (h : sets.relax? i j = none) : sets.Settled i j := by
  intro s hSource
  exact relax?_eq_none h hSource (hSound.size ▸ hBound) (hSound.own j)

/-- Following an edge settles it: the set of its target has become small
enough. It may be unsettled again when the set of its source shrinks. -/
theorem Settled.of_relax?_some (hSound : Sound c ignoreExceptions sets)
    (h : sets.relax? i j = some new) : new.Settled i j := by
  obtain ⟨s, r, hSource, hTarget, -, hOthers, hMembers⟩ := relax?_eq_some h
  intro s' hSource'
  rw [hOthers i (hSound.ne_of_relax? h), hSource, Option.some.injEq, Option.some.injEq]
    at hSource'
  subst hSource'
  refine ⟨r, hTarget, ?_⟩
  intro k hk
  rcases (hMembers k).mp hk with hSame | ⟨hMem, -⟩
  · exact Or.inl hSame
  · exact Or.inr hMem

/-- A relaxation settles no edge less, those apart that start where it
leads. The set there has lost something, which its own targets may have to
lose too. -/
theorem Settled.relax? {u v : Nat} (hSettled : sets.Settled u v)
    (h : sets.relax? i j = some new) (hSource : u ≠ j) : new.Settled u v := by
  obtain ⟨_, r, -, hTarget, -, hOthers, hMembers⟩ := relax?_eq_some h
  intro s hSet
  rw [hOthers u hSource] at hSet
  obtain ⟨t, hOld, hSubset⟩ := hSettled s hSet
  by_cases hv : v = j
  · subst hv
    refine ⟨r, hTarget, ?_⟩
    intro k hk
    rcases (hMembers k).mp hk with hSame | ⟨-, hMem⟩
    · exact Or.inl hSame
    · exact hSubset k (hMem t hOld)
  · exact ⟨t, (hOthers v hv).trans hOld, hSubset⟩

/-- The edges of a position stay done, unless its own set changes. -/
theorem Done.relax? {u : Nat} (hDone : Done c ignoreExceptions sets u)
    (h : sets.relax? i j = some new) (hSource : u ≠ j) : Done c ignoreExceptions new u := by
  obtain ⟨-, -, -, -, -, hOthers, -⟩ := relax?_eq_some h
  intro v hReached hEdge
  rw [hOthers u hSource] at hReached
  obtain ⟨k, hIndex, hSettled⟩ := hDone v hReached hEdge
  exact ⟨k, hIndex, hSettled.relax? h hSource⟩

/-- Once all edges are settled, a path leads only to nodes whose sets hold
nothing that is not on it. The induction is on the path, and a settled edge
carries the claim from one node to the next. -/
theorem Sound.subset_path (hSound : Sound c ignoreExceptions sets)
    (hDone : ∀ i, Done c ignoreExceptions sets i) {nodes : List FlowNode} {b : FlowNode}
    (hPath : FlowPath c ignoreExceptions nodes b) :
    ∃ i t, b.index c.addresses = .ok i ∧ sets[i]? = some (some t) ∧
      ∀ k, t.contains k = true → FlowNode.ofIndex c.addresses k ∈ nodes := by
  induction hPath with
  | entry =>
      obtain ⟨t, hSet, hOnly⟩ := hSound.entry
      refine ⟨_, t, rfl, hSet, ?_⟩
      intro k hk
      rw [hOnly k hk, FlowNode.ofIndex_entryPosition]
      exact List.mem_singleton_self _
  | @step nodes u v prior last ih =>
      obtain ⟨i, s, hIndex, hSet, hSubset⟩ := ih
      rw [← (FlowNode.ofIndex_of_index hIndex).2] at last
      obtain ⟨j, hTargetIndex, hSettled⟩ := hDone i v ⟨s, hSet⟩ last
      obtain ⟨t, hTarget, hMembers⟩ := hSettled s hSet
      refine ⟨j, t, hTargetIndex, hTarget, ?_⟩
      intro k hk
      rcases hMembers k hk with rfl | hMem
      · rw [(FlowNode.ofIndex_of_index hTargetIndex).2]
        exact List.mem_cons_self
      · exact List.mem_cons_of_mem _ (hSubset k hMem)

end DominatorSets

namespace DominatorWork

/-- The edges that start at a position are settled, or it is still to be
visited. This is the second invariant of the worklist. -/
def Covered (c : Code) (ignoreExceptions : Bool) (w : DominatorWork) (i : Nat) : Prop :=
  DominatorSets.Done c ignoreExceptions w.sets i ∨
    ∃ a ∈ w.pending, FlowNode.position? c.addresses a = some i

/-- What holds after some edges of one source were followed: the sets are
sound, no position is forgotten, and edges of the source that were settled
stay so. -/
structure Follows (c : Code) (ignoreExceptions : Bool) (source : Nat)
    (new w : DominatorWork) : Prop where
  sound : DominatorSets.Sound c ignoreExceptions new.sets
  covered : ∀ i, Covered c ignoreExceptions w i → Covered c ignoreExceptions new i
  settled : ∀ j, w.sets.Settled source j → new.sets.Settled source j

variable {c : Code} {ignoreExceptions : Bool} {source : Nat} {w middle new : DominatorWork}

theorem Follows.refl (hSound : DominatorSets.Sound c ignoreExceptions w.sets) :
    Follows c ignoreExceptions source w w :=
  ⟨hSound, fun _ h => h, fun _ h => h⟩

/-- Edges may be followed one after the other. -/
theorem Follows.trans (hSecond : Follows c ignoreExceptions source new middle)
    (hFirst : Follows c ignoreExceptions source middle w) :
    Follows c ignoreExceptions source new w where
  sound := hSecond.sound
  covered i h := hSecond.covered i (hFirst.covered i h)
  settled j h := hSecond.settled j (hFirst.settled j h)

/-- Following one edge that changes the set of its target, where the target
is covered afterwards. -/
theorem Follows.of_relax? {j : Nat} {sets : DominatorSets} {pending : List Address}
    (hNodup : c.addresses.Nodup) (hSound : DominatorSets.Sound c ignoreExceptions w.sets)
    (hEdge : FlowEdge c ignoreExceptions (FlowNode.ofIndex c.addresses source)
      (FlowNode.ofIndex c.addresses j))
    (hEntry : j ≠ FlowNode.entryPosition c.addresses)
    (h : w.sets.relax? source j = some sets) (hPending : w.pending ⊆ pending)
    (hTarget : Covered c ignoreExceptions ⟨sets, pending⟩ j) :
    Follows c ignoreExceptions source ⟨sets, pending⟩ w where
  sound := hSound.relax? hNodup hEdge hEntry h
  settled k hSettled := hSettled.relax? h (hSound.ne_of_relax? h)
  covered := by
    intro i hCovered
    by_cases hi : i = j
    · exact hi ▸ hTarget
    · rcases hCovered with hDone | ⟨a, hPendingA, hPosition⟩
      · exact Or.inl (hDone.relax? h hi)
      · exact Or.inr ⟨a, hPending hPendingA, hPosition⟩

/-- Following the edges to some instructions: all of them are settled
afterwards. The induction is on the targets. -/
theorem spread_follows (hNodup : c.addresses.Nodup) {targets : List Address}
    (hSound : DominatorSets.Sound c ignoreExceptions w.sets)
    (hEdges : ∀ a ∈ targets, FlowEdge c ignoreExceptions
      (FlowNode.ofIndex c.addresses source) (.instr a))
    (h : spread c.addresses source targets w = .ok new) :
    Follows c ignoreExceptions source new w ∧
      ∀ a ∈ targets, ∃ j, (FlowNode.instr a).index c.addresses = .ok j ∧
        new.sets.Settled source j := by
  induction targets generalizing w with
  | nil =>
      simp only [spread, Except.ok.injEq] at h
      subst h
      exact ⟨.refl hSound, by simp⟩
  | cons target rest ih =>
      have hFirstEdge := hEdges target List.mem_cons_self
      have hRestEdges : ∀ a ∈ rest, FlowEdge c ignoreExceptions
          (FlowNode.ofIndex c.addresses source) (.instr a) :=
        fun a ha => hEdges a (List.mem_cons_of_mem _ ha)
      rw [spread] at h
      cases hPosition : FlowNode.position? c.addresses target with
      | none => simp [hPosition] at h
      | some j =>
          have hIndex : (FlowNode.instr target).index c.addresses = .ok j := by
            simp [FlowNode.index, hPosition]
          obtain ⟨hBound, hNode⟩ := FlowNode.ofIndex_of_index hIndex
          rw [← hNode] at hFirstEdge
          simp only [hPosition] at h
          -- In both cases the first edge is settled now, and stays so.
          have hRest : ∃ middle : DominatorWork,
              Follows c ignoreExceptions source middle w ∧ middle.sets.Settled source j ∧
                spread c.addresses source rest middle = .ok new := by
            cases hRelax : w.sets.relax? source j with
            | none =>
                rw [hRelax] at h
                exact ⟨w, .refl hSound, .of_relax?_none hSound hBound hRelax, h⟩
            | some sets =>
                rw [hRelax] at h
                have hEntry : j ≠ FlowNode.entryPosition c.addresses :=
                  Nat.ne_of_lt (FlowNode.lt_of_position? hPosition)
                refine ⟨_, ?_, .of_relax?_some hSound hRelax, h⟩
                exact .of_relax? hNodup hSound hFirstEdge hEntry hRelax
                  (List.subset_cons_self target w.pending)
                  (Or.inr ⟨target, List.mem_cons_self, hPosition⟩)
          obtain ⟨middle, hFirst, hSettled, hSpread⟩ := hRest
          obtain ⟨hFollows, hTargets⟩ := ih hFirst.sound hRestEdges hSpread
          refine ⟨hFollows.trans hFirst, ?_⟩
          intro a ha
          rcases List.mem_cons.mp ha with rfl | ha
          · exact ⟨j, hIndex, hFollows.settled j hSettled⟩
          · exact hTargets a ha

/-- Following the edge of a return. Nothing goes on from the exit. -/
theorem exit_follows (hNodup : c.addresses.Nodup)
    (hSound : DominatorSets.Sound c ignoreExceptions w.sets)
    (hEdge : FlowEdge c ignoreExceptions (FlowNode.ofIndex c.addresses source) .exit)
    {sets : DominatorSets}
    (h : (w.sets.relax? source (FlowNode.exitPosition c.addresses)).getD w.sets = sets) :
    Follows c ignoreExceptions source ⟨sets, w.pending⟩ w ∧
      sets.Settled source (FlowNode.exitPosition c.addresses) := by
  cases hRelax : w.sets.relax? source (FlowNode.exitPosition c.addresses) with
  | none =>
      rw [hRelax, Option.getD_none] at h
      subst h
      exact ⟨.refl hSound, .of_relax?_none hSound (by simp [FlowNode.exitPosition]) hRelax⟩
  | some relaxed =>
      rw [hRelax, Option.getD_some] at h
      subst h
      refine ⟨?_, .of_relax?_some hSound hRelax⟩
      refine .of_relax? hNodup hSound ?_ ?_ hRelax (List.Subset.refl _) (Or.inl ?_)
      · simpa using hEdge
      · simp [FlowNode.exitPosition, FlowNode.entryPosition]
      · intro v _ hFromExit
        rw [FlowNode.ofIndex_exitPosition] at hFromExit
        exact False.elim (not_flowEdge_from_exit hFromExit)

/-- Visiting an instruction settles all of its edges, the exit included. It
may not be visited again unless its own set changes. -/
theorem visit_follows (hNodup : c.addresses.Nodup) {p : PlacedInstr}
    (hSound : DominatorSets.Sound c ignoreExceptions w.sets) (hInstr : p ∈ c.instrs)
    (hPosition : FlowNode.position? c.addresses p.address = some source)
    (h : visit c ignoreExceptions p source w = .ok new) :
    Follows c ignoreExceptions source new w ∧
      DominatorSets.Done c ignoreExceptions new.sets source := by
  have hNode := FlowNode.ofIndex_of_position? hPosition
  cases hSuccessors : c.successors p with
  | error e => simp [visit, hSuccessors] at h
  | ok successors =>
      simp only [visit, hSuccessors] at h
      obtain ⟨-, hExits⟩ := Code.successors_ok hSuccessors
      have hTargets : ∀ a, a ∈ c.flowTargets ignoreExceptions successors ↔
          FlowEdge c ignoreExceptions (.instr p.address) (.instr a) :=
        Code.mem_flowTargets hInstr (fun _ hq => Code.eq_of_address_eq hNodup hInstr hq) hSuccessors
      -- The edge to the exit is settled first, and only where there is one.
      have hExit : ∃ sets : DominatorSets,
          Follows c ignoreExceptions source ⟨sets, w.pending⟩ w ∧
          (p.instr.isReturn = true →
            sets.Settled source (FlowNode.exitPosition c.addresses)) ∧
          spread c.addresses source (c.flowTargets ignoreExceptions successors)
            ⟨sets, w.pending⟩ = .ok new := by
        by_cases hReturn : p.instr.isReturn = true
        · rw [if_pos (hExits.mpr hReturn)] at h
          have hEdge : FlowEdge c ignoreExceptions (FlowNode.ofIndex c.addresses source) .exit :=
            hNode ▸ FlowEdge.ret hInstr hReturn
          obtain ⟨hFollows, hSettled⟩ := exit_follows hNodup hSound hEdge rfl
          exact ⟨_, hFollows, fun _ => hSettled, h⟩
        · rw [if_neg (fun hAny => hReturn (hExits.mp hAny))] at h
          exact ⟨w.sets, .refl hSound, fun hIsReturn => False.elim (hReturn hIsReturn), h⟩
      obtain ⟨sets, hFirst, hExitSettled, hSpread⟩ := hExit
      obtain ⟨hFollows, hSettled⟩ := spread_follows hNodup hFirst.sound
        (fun a ha => hNode ▸ (hTargets a).mp ha) hSpread
      refine ⟨hFollows.trans hFirst, ?_⟩
      intro v _ hEdge
      rw [hNode] at hEdge
      cases v with
      | entry => exact False.elim (not_flowEdge_entry hEdge)
      | instr a => exact hSettled a ((hTargets a).mpr hEdge)
      | exit =>
          obtain ⟨q, hq, hAddress, hReturn⟩ := hEdge.of_exit
          obtain rfl := Code.eq_of_address_eq hNodup hq hInstr (FlowNode.instr.inj hAddress)
          exact ⟨_, rfl, hFollows.settled _ (hExitSettled hReturn)⟩

/-- The run ends with no set below the true dominators and no edge left to
follow. Both invariants hold at the start of every turn, and at the end
nothing is pending. -/
theorem run_sound (hNodup : c.addresses.Nodup) {sets : DominatorSets}
    (hSound : DominatorSets.Sound c ignoreExceptions w.sets)
    (hCovered : ∀ i, Covered c ignoreExceptions w i)
    (h : (run c ignoreExceptions w).value = .ok sets) :
    DominatorSets.Sound c ignoreExceptions sets ∧
      ∀ i, DominatorSets.Done c ignoreExceptions sets i := by
  fun_induction run c ignoreExceptions w with
  | case1 finished =>
      simp only [Except.ok.injEq] at h
      subst h
      refine ⟨hSound, fun i => ?_⟩
      rcases hCovered i with hDone | ⟨a, hPending, -⟩
      · exact hDone
      · simp at hPending
  | case2 => simp at h
  | case3 => simp at h
  | case4 => simp at h
  | case5 current a rest source p hFound hPosition visited next hVisit outcome ih =>
      obtain ⟨hInstr, rfl⟩ := Code.of_instrAt hFound
      obtain ⟨hFollows, hDone⟩ :=
        visit_follows (w := ⟨current, rest⟩) hNodup hSound hInstr hPosition hVisit
      refine ih hFollows.sound (fun i => ?_) h
      rcases hCovered i with hBefore | ⟨b, hPending, hSame⟩
      · exact hFollows.covered i (Or.inl hBefore)
      · rcases List.mem_cons.mp hPending with rfl | hRest
        · rw [hPosition, Option.some.injEq] at hSame
          exact Or.inl (hSame ▸ hDone)
        · exact hFollows.covered i (Or.inr ⟨b, hRest, hSame⟩)

/-- One visit of a run. The journal is left out here, as only the result is
asked for. -/
theorem run_cons {sets : DominatorSets} {a : Address} {rest : List Address} {p : PlacedInstr}
    {next : DominatorWork}
    (hPosition : FlowNode.position? c.addresses a = some source)
    (hFound : c.instrAt a = .ok p)
    (hVisit : visit c ignoreExceptions p source ⟨sets, rest⟩ = .ok next) :
    (run c ignoreExceptions ⟨sets, a :: rest⟩).value = (run c ignoreExceptions next).value := by
  rw [run]
  simp only [hPosition, hFound]
  split
  · rename_i hError
    rw [hVisit] at hError
    cases hError
  · rename_i other hOther
    rw [hVisit, Except.ok.injEq] at hOther
    rw [hOther]

end DominatorWork

namespace DominatorTable

variable {c : Code} {ignoreExceptions : Bool}

/-- A finished analysis is a start and a run that both succeed. -/
theorem ofCode_eq_ok_iff {t : DominatorTable} :
    (ofCode c ignoreExceptions).value = .ok t ↔
      t.addresses = c.addresses ∧ ∃ work, DominatorWork.start c ignoreExceptions = .ok work ∧
        (work.run c ignoreExceptions).value = .ok t.sets := by
  unfold ofCode
  cases hStart : DominatorWork.start c ignoreExceptions with
  | error e => simp
  | ok work =>
      cases hRun : (work.run c ignoreExceptions).value with
      | error e => simp [hRun, Except.map]
      | ok sets =>
          obtain ⟨addresses, sets'⟩ := t
          simp [hRun, Except.map, eq_comm]

/-- An analysis fails where it starts or on the way. The error is passed on
as it is. -/
theorem ofCode_eq_error_iff {e : FlowFailure} :
    (ofCode c ignoreExceptions).value = .error e ↔
      DominatorWork.start c ignoreExceptions = .error e ∨
        ∃ work, DominatorWork.start c ignoreExceptions = .ok work ∧
          (work.run c ignoreExceptions).value = .error e := by
  unfold ofCode
  cases hStart : DominatorWork.start c ignoreExceptions with
  | error e' => simp
  | ok work =>
      cases hRun : (work.run c ignoreExceptions).value with
      | error e' => simp [hRun, Except.map]
      | ok sets => simp [hRun, Except.map]

/-- Before the first edge only the entry has a set, which has the entry
alone in it. So the invariant holds at the start. -/
theorem getElem?_initialSets {addresses : List Address} {i : Nat} {s : NodeSet}
    (h : (initialSets addresses)[i]? = some (some s)) :
    i = FlowNode.entryPosition addresses ∧
      s = NodeSet.empty.insert (FlowNode.entryPosition addresses) := by
  unfold initialSets at h
  by_cases hi : i = FlowNode.entryPosition addresses
  · subst hi
    rw [Array.getElem?_setIfInBounds_self_of_lt (by simp [FlowNode.entryPosition])] at h
    simp only [Option.some.injEq] at h
    exact ⟨rfl, h.symm⟩
  · rw [Array.getElem?_setIfInBounds_ne (Ne.symm hi), Array.getElem?_replicate] at h
    simp at h

/-- The sets are sound before the first edge, as only the entry is
reached. -/
theorem initialSets_sound (hNodup : c.addresses.Nodup) :
    DominatorSets.Sound c ignoreExceptions (initialSets c.addresses) where
  size := by simp [initialSets]
  reached i s hSet := by
    obtain ⟨rfl, -⟩ := getElem?_initialSets hSet
    simpa using FlowReachable.entry
  own i s hSet := by
    obtain ⟨rfl, rfl⟩ := getElem?_initialSets hSet
    simp
  above i s k hSet hk hDominates := by
    obtain ⟨rfl, rfl⟩ := getElem?_initialSets hSet
    rw [FlowNode.ofIndex_entryPosition] at hDominates
    have hEntry : k = FlowNode.entryPosition c.addresses := by
      refine FlowNode.ofIndex_inj hNodup hk (by simp [FlowNode.entryPosition]) ?_
      rw [hDominates.eq_entry, FlowNode.ofIndex_entryPosition]
    simp [hEntry]
  entry := by
    refine ⟨NodeSet.empty.insert (FlowNode.entryPosition c.addresses), ?_, ?_⟩
    · exact Array.getElem?_setIfInBounds_self_of_lt (by simp [FlowNode.entryPosition])
    · intro k hk
      simpa [eq_comm] using hk

/-- The edges of the entry are followed before the run. They are settled,
and what they lead to is to be visited. -/
theorem start_follows (hNodup : c.addresses.Nodup) {work : DominatorWork}
    (h : DominatorWork.start c ignoreExceptions = .ok work) :
    DominatorWork.Follows c ignoreExceptions (FlowNode.entryPosition c.addresses) work
        ⟨initialSets c.addresses, []⟩ ∧
      ∀ a ∈ c.entryTargets ignoreExceptions, ∃ j, (FlowNode.instr a).index c.addresses = .ok j ∧
        work.sets.Settled (FlowNode.entryPosition c.addresses) j :=
  DominatorWork.spread_follows hNodup (initialSets_sound hNodup)
    (fun a ha => by simpa using (Code.mem_entryTargets a).mp ha) h

/-- The sets of a finished analysis are sound, and all edges are settled.
Everything that it tells about dominance follows from these two facts. -/
theorem ofCode_sound (hNodup : c.addresses.Nodup) {t : DominatorTable}
    (h : (ofCode c ignoreExceptions).value = .ok t) :
    t.addresses = c.addresses ∧ DominatorSets.Sound c ignoreExceptions t.sets ∧
      ∀ i, DominatorSets.Done c ignoreExceptions t.sets i := by
  obtain ⟨hAddresses, work, hStart, hRun⟩ := ofCode_eq_ok_iff.mp h
  obtain ⟨hFollows, hSettled⟩ := start_follows hNodup hStart
  refine ⟨hAddresses, DominatorWork.run_sound hNodup hFollows.sound (fun i => ?_) hRun⟩
  by_cases hi : i = FlowNode.entryPosition c.addresses
  · subst hi
    refine Or.inl ?_
    intro v _ hEdge
    rw [FlowNode.ofIndex_entryPosition] at hEdge
    cases v with
    | entry => exact False.elim (not_flowEdge_entry hEdge)
    | instr a => exact hSettled a ((Code.mem_entryTargets a).mpr hEdge)
    | exit =>
        obtain ⟨p, -, hEntry, -⟩ := hEdge.of_exit
        cases hEntry
  · refine hFollows.covered i (Or.inl ?_)
    rintro v ⟨s, hSet⟩
    exact False.elim (hi (getElem?_initialSets hSet).1)

/-- A node has an answer just if it is in the code and has been reached. -/
theorem reachedSet_ok {t : DominatorTable} {node : FlowNode} {s : NodeSet} :
    t.reachedSet node = .ok s ↔
      ∃ i, node.index t.addresses = .ok i ∧ t.sets[i]? = some (some s) := by
  unfold reachedSet
  cases hIndex : node.index t.addresses with
  | error e => simp [bind, Except.bind]
  | ok i =>
      simp only [bind, Except.bind, Except.ok.injEq, exists_eq_left']
      split
      · rename_i r hSet
        simp [hSet, pure, Except.pure]
      · rename_i hNone
        simp only [throw, throwThe, MonadExceptOf.throw, reduceCtorEq, false_iff]
        exact hNone s

section

variable {t : DominatorTable}

/-- The nodes of a finished analysis are those of the code, whatever its
addresses are. -/
theorem addresses_of_ofCode (h : (ofCode c ignoreExceptions).value = .ok t) :
    t.addresses = c.addresses :=
  (ofCode_eq_ok_iff.mp h).1

/-- The nodes that have a set are those that a path leads to. One direction
is the invariant of the run, the other one its end. -/
theorem reachedSet_ok_iff_reachable (hNodup : c.addresses.Nodup)
    (h : (ofCode c ignoreExceptions).value = .ok t) (b : FlowNode) :
    (∃ s, t.reachedSet b = .ok s) ↔ FlowReachable c ignoreExceptions b := by
  obtain ⟨hAddresses, hSound, hDone⟩ := ofCode_sound hNodup h
  constructor
  · intro hReached
    obtain ⟨s, hSet⟩ := hReached
    obtain ⟨i, hIndex, hSet⟩ := reachedSet_ok.mp hSet
    rw [hAddresses] at hIndex
    rw [← (FlowNode.ofIndex_of_index hIndex).2]
    exact hSound.reached i s hSet
  · intro hReachable
    obtain ⟨nodes, hPath⟩ := hReachable
    obtain ⟨i, s, hIndex, hSet, -⟩ := hSound.subset_path hDone hPath
    exact ⟨s, reachedSet_ok.mpr ⟨i, hAddresses ▸ hIndex, hSet⟩⟩

/-- The set of a node holds the nodes that every path to it goes through.
One direction is that no true dominator was lost, and the other that each
path rules out what is not on it. -/
theorem contains_reachedSet_iff_dominates (hNodup : c.addresses.Nodup)
    (h : (ofCode c ignoreExceptions).value = .ok t) {a b : FlowNode} {s : NodeSet} {k : Nat}
    (hSet : t.reachedSet b = .ok s) (hDominator : a.index c.addresses = .ok k) :
    s.contains k = true ↔ FlowDominates c ignoreExceptions a b := by
  obtain ⟨hAddresses, hSound, hDone⟩ := ofCode_sound hNodup h
  obtain ⟨i, hIndex, hSet⟩ := reachedSet_ok.mp hSet
  rw [hAddresses] at hIndex
  obtain ⟨hk, hNodeK⟩ := FlowNode.ofIndex_of_index hDominator
  constructor
  · intro hMem nodes hPath
    obtain ⟨j, s', hIndex', hSet', hSubset⟩ := hSound.subset_path hDone hPath
    obtain rfl : i = j := Except.ok.inj (hIndex.symm.trans hIndex')
    obtain rfl : s = s' := Option.some.inj (Option.some.inj (hSet.symm.trans hSet'))
    rw [← hNodeK]
    exact hSubset k hMem
  · intro hDominates
    apply hSound.above i s k hSet hk
    rw [hNodeK, (FlowNode.ofIndex_of_index hIndex).2]
    exact hDominates

end

end DominatorTable

namespace Dominators

variable {d d' : Dominators} {signature : MethodSignature} {c : Code}

/-- What the calculator remembers of a successful analysis: the method, and
the sets of this analysis and of no earlier one. -/
theorem analyze_ok (h : (d.analyze signature c).value = (.ok (), d')) :
    d'.method? = some signature ∧
      (DominatorTable.ofCode c d.ignoreExceptions).value = .ok d'.results := by
  unfold analyze at h
  simp only [Traced.value_bind] at h
  cases hTable : (DominatorTable.ofCode c d.ignoreExceptions).value with
  | error e => simp [hTable] at h
  | ok t =>
      simp only [hTable, Traced.value_pure, Prod.mk.injEq, true_and] at h
      subst h
      exact ⟨rfl, rfl⟩

/-- A calculator with a method answers from its sets. -/
theorem table_of_method (h : d.method? = some signature) (node : FlowNode) :
    d.table node = .ok d.results := by
  simp [table, h]

/-- The nodes that a finished analysis has reached are those that a path
leads to. -/
theorem isReached_iff_reachable (hNodup : c.addresses.Nodup)
    (hOk : (d.analyze signature c).value = (.ok (), d')) (b : FlowNode) :
    d'.isReached b = true ↔ FlowReachable c d.ignoreExceptions b := by
  obtain ⟨hMethod, hTable⟩ := analyze_ok hOk
  rw [← DominatorTable.reachedSet_ok_iff_reachable hNodup hTable b]
  cases hSet : d'.results.reachedSet b <;>
    simp [isReached, table_of_method hMethod, hSet, Except.isOk, Except.toBool]

/-- A finished analysis answers for the nodes that it has reached and all
nodes of the code, and the answer is yes for those that are on every
path. -/
theorem dominates_of_reachable (hNodup : c.addresses.Nodup)
    (hOk : (d.analyze signature c).value = (.ok (), d')) {a b : FlowNode} (hNode : c.HasNode a)
    (hReachable : FlowReachable c d.ignoreExceptions b) :
    ∃ answer, d'.dominates a b = .ok answer ∧
      (answer = true ↔ FlowDominates c d.ignoreExceptions a b) := by
  obtain ⟨hMethod, hTable⟩ := analyze_ok hOk
  obtain ⟨s, hSet⟩ := (DominatorTable.reachedSet_ok_iff_reachable hNodup hTable b).mpr hReachable
  obtain ⟨k, hIndex⟩ := FlowNode.index_of_hasNode hNode
  refine ⟨s.contains k, ?_,
    DominatorTable.contains_reachedSet_iff_dominates hNodup hTable hSet hIndex⟩
  rw [← DominatorTable.addresses_of_ofCode hTable] at hIndex
  simp [dominates, table_of_method hMethod, hSet, hIndex, bind, Except.bind, pure, Except.pure]

/-- A successful analysis computes dominance, whatever was analysed before:
a node is reached if and only if a path leads to it, and then a node of the
code is among its dominators if and only if every path to it goes through
that node. -/
theorem analyze_computes_dominance {c : Code} (hIncreasing : c.addresses.Pairwise (· < ·))
    {d d' : Dominators} {signature : MethodSignature}
    (hOk : (d.analyze signature c).value = (.ok (), d')) :
    (∀ b, d'.isReached b = true ↔ FlowReachable c d.ignoreExceptions b) ∧
      ∀ a b, c.HasNode a → d'.isReached b = true →
        ∃ answer, d'.dominates a b = .ok answer ∧
          (answer = true ↔ FlowDominates c d.ignoreExceptions a b) := by
  have hNodup : c.addresses.Nodup := hIncreasing.imp Address.ne_of_lt
  have hReached := isReached_iff_reachable hNodup hOk
  refine ⟨hReached, ?_⟩
  intro a b hNode hIsReached
  exact dominates_of_reachable hNodup hOk hNode ((hReached b).mp hIsReached)

end Dominators

/-- A loop that is left at its head, where an exception leaves it too. -/
def retryLoop : Code where
  maxStack := 1
  maxLocals := 1
  instrs := [⟨⟨0⟩, .branch .eq .zero 6⟩, ⟨⟨3⟩, .goto (-3)⟩, ⟨⟨6⟩, .ret .void⟩]
  handlers := [⟨⟨0⟩, ⟨3⟩, ⟨6⟩, none⟩]
  lines := []

theorem retryLoop_sets :
    (DominatorTable.ofCode retryLoop false).value = .ok ⟨[⟨0⟩, ⟨3⟩, ⟨6⟩],
      #[some ⟨9⟩, some ⟨11⟩, some ⟨12⟩, some ⟨8⟩, some ⟨28⟩]⟩ := by
  have hFirst : DominatorWork.visit retryLoop false ⟨⟨6⟩, .ret .void⟩ 2
      ⟨#[some ⟨9⟩, none, some ⟨12⟩, some ⟨8⟩, none], [⟨0⟩]⟩ =
      .ok ⟨#[some ⟨9⟩, none, some ⟨12⟩, some ⟨8⟩, some ⟨28⟩], [⟨0⟩]⟩ := by cbv
  have hSecond : DominatorWork.visit retryLoop false ⟨⟨0⟩, .branch .eq .zero 6⟩ 0
      ⟨#[some ⟨9⟩, none, some ⟨12⟩, some ⟨8⟩, some ⟨28⟩], []⟩ =
      .ok ⟨#[some ⟨9⟩, some ⟨11⟩, some ⟨12⟩, some ⟨8⟩, some ⟨28⟩], [⟨3⟩]⟩ := by
    have hSuccessors : retryLoop.successors ⟨⟨0⟩, .branch .eq .zero 6⟩ =
        .ok [(.ifTrue .eq .zero, some ⟨6⟩), (.ifFalse .eq .zero, some ⟨3⟩)] := rfl
    rw [DominatorWork.visit, hSuccessors]
    cbv
  have hThird : DominatorWork.visit retryLoop false ⟨⟨3⟩, .goto (-3)⟩ 1
      ⟨#[some ⟨9⟩, some ⟨11⟩, some ⟨12⟩, some ⟨8⟩, some ⟨28⟩], []⟩ =
      .ok ⟨#[some ⟨9⟩, some ⟨11⟩, some ⟨12⟩, some ⟨8⟩, some ⟨28⟩], []⟩ := by
    have hSuccessors : retryLoop.successors ⟨⟨3⟩, .goto (-3)⟩ = .ok [(.jump, some ⟨0⟩)] := rfl
    rw [DominatorWork.visit, hSuccessors]
    cbv
  have hRun : (DominatorWork.run retryLoop false
      ⟨#[some ⟨9⟩, none, some ⟨12⟩, some ⟨8⟩, none], [⟨6⟩, ⟨0⟩]⟩).value =
      .ok #[some ⟨9⟩, some ⟨11⟩, some ⟨12⟩, some ⟨8⟩, some ⟨28⟩] := by
    rw [DominatorWork.run_cons rfl rfl hFirst, DominatorWork.run_cons rfl rfl hSecond,
      DominatorWork.run_cons rfl rfl hThird, DominatorWork.run]
  have hStart : DominatorWork.start retryLoop false =
      .ok ⟨#[some ⟨9⟩, none, some ⟨12⟩, some ⟨8⟩, none], [⟨6⟩, ⟨0⟩]⟩ := by cbv
  simp only [DominatorTable.ofCode, hStart, Traced.value_bind, hRun, Except.map, Traced.value_pure]
  rfl

/-- The head of the loop is on every path into the loop, but not on every
path to the exit: the first instruction may throw before it is entered. -/
theorem retryLoop_dominance :
    retryLoop.addresses.Pairwise (· < ·) ∧
      ∃ d', (Dominators.analyze ⟨false, some .unknown, ⟨[], #[]⟩⟩
          (.of "t/A" "f" "()V") retryLoop).value = (.ok (), d') ∧
        d'.dominates (.instr ⟨0⟩) (.instr ⟨3⟩) = .ok true ∧
        FlowDominates retryLoop false (.instr ⟨0⟩) (.instr ⟨3⟩) ∧
        d'.dominates (.instr ⟨0⟩) .exit = .ok false ∧
        ¬ FlowDominates retryLoop false (.instr ⟨0⟩) .exit := by
  have hIncreasing : retryLoop.addresses.Pairwise (· < ·) := by decide
  have hOk : (Dominators.analyze ⟨false, some .unknown, ⟨[], #[]⟩⟩
      (.of "t/A" "f" "()V") retryLoop).value = (.ok (), ⟨false, some (.of "t/A" "f" "()V"),
        ⟨[⟨0⟩, ⟨3⟩, ⟨6⟩], #[some ⟨9⟩, some ⟨11⟩, some ⟨12⟩, some ⟨8⟩, some ⟨28⟩]⟩⟩) := by
    simp [Dominators.analyze, retryLoop_sets]
  have hDominance := (Dominators.analyze_computes_dominance hIncreasing hOk).2
  refine ⟨hIncreasing, _, hOk, rfl, ?_, rfl, ?_⟩
  · obtain ⟨answer, hAnswer, hIff⟩ := hDominance (.instr ⟨0⟩) (.instr ⟨3⟩) (by decide) rfl
    exact hIff.mp (Except.ok.inj hAnswer).symm
  · obtain ⟨answer, hAnswer, hIff⟩ := hDominance (.instr ⟨0⟩) .exit (by decide) rfl
    intro hDominates
    rw [hIff.mpr hDominates] at hAnswer
    cases hAnswer

end JvmCalls
