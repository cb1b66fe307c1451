import JvmCalls.Proofs.Flow.Paths

/-! One relaxation of an edge, and the positions of nodes. A relaxation
replaces the set of the target by what the source leaves of it, and it tells
by comparing numbers whether that set has lost a member. -/
namespace JvmCalls

namespace NodeSet

/-- The set that an edge leaves, where the target is in its own set
already. -/
theorem insert_inter_bits {s t : NodeSet} {i : Nat} (hOwn : t.contains i = true) :
    ((t.inter s).insert i).bits = t.bits &&& (s.insert i).bits := by
  apply Nat.eq_of_testBit_eq
  intro k
  rw [Nat.testBit_and]
  show ((t.inter s).insert i).contains k = (t.contains k && (s.insert i).contains k)
  rw [contains_insert, contains_inter, contains_insert]
  by_cases hk : i = k
  · subst hk
    simp [hOwn]
  · simp [hk]

/-- The set that an edge leaves is the smaller number, unless nothing was
lost. -/
theorem insert_inter_eq {s t : NodeSet} {i : Nat} (hOwn : t.contains i = true)
    (h : ¬ ((t.inter s).insert i).bits < t.bits) : (t.inter s).insert i = t := by
  have hBits := insert_inter_bits (s := s) hOwn
  have hLe : t.bits &&& (s.insert i).bits ≤ t.bits := Nat.and_le_left
  have hEq : ((t.inter s).insert i).bits = t.bits := by omega
  exact congrArg NodeSet.mk hEq

end NodeSet

namespace DominatorSets

/-- A relaxation that changes the sets: only the set of the target is
another one afterwards, and it holds the target and all that was in both
sets before. All that is proved of relaxations rests on this and the next
fact. -/
theorem relax?_eq_some {sets new : DominatorSets} {i j : Nat}
    (h : sets.relax? i j = some new) :
    ∃ s r, sets[i]? = some (some s) ∧ new[j]? = some (some r) ∧
      new.size = sets.size ∧ (∀ k, k ≠ j → new[k]? = sets[k]?) ∧
      ∀ k, r.contains k = true ↔
        k = j ∨ s.contains k = true ∧ ∀ t, sets[j]? = some (some t) → t.contains k = true := by
  unfold relax? at h
  split at h
  · rename_i source target hSource hTarget
    obtain ⟨r, hRefine, rfl⟩ := Option.map_eq_some_iff.mp h
    have hBound : j < sets.size := by
      obtain ⟨hBound, -⟩ := Array.getElem?_eq_some_iff.mp hTarget
      exact hBound
    have hOthers : ∀ k, k ≠ j → (sets.setIfInBounds j (some r))[k]? = sets[k]? := by
      intro k hk
      exact Array.getElem?_setIfInBounds_ne (Ne.symm hk)
    have hNew : (sets.setIfInBounds j (some r))[j]? = some (some r) :=
      Array.getElem?_setIfInBounds_self_of_lt hBound
    unfold refine? at hRefine
    split at hRefine
    · rename_i s t
      simp only [Option.ite_none_right_eq_some, Option.some.injEq] at hRefine
      obtain ⟨-, rfl⟩ := hRefine
      refine ⟨s, _, hSource, hNew, Array.size_setIfInBounds, hOthers, ?_⟩
      intro k
      simp only [hTarget, NodeSet.contains_insert, NodeSet.contains_inter, Bool.or_eq_true,
        Bool.and_eq_true, decide_eq_true_eq, Option.some.injEq, forall_eq']
      rw [or_comm, and_comm (a := t.contains k = true), eq_comm (a := j)]
    · rename_i s
      simp only [Option.some.injEq] at hRefine
      subst hRefine
      refine ⟨s, _, hSource, hNew, Array.size_setIfInBounds, hOthers, ?_⟩
      intro k
      simp only [hTarget, NodeSet.contains_insert, Bool.or_eq_true, decide_eq_true_eq,
        Option.some.injEq, reduceCtorEq, false_implies, implies_true, and_true]
      rw [or_comm, eq_comm (a := j)]
    · simp at hRefine
  · simp at h

/-- A set after a relaxation is the new one of the target, or an old one. -/
theorem set_of_relax? {sets new : DominatorSets} {j k : Nat} {r t : NodeSet}
    (hTarget : new[j]? = some (some r)) (hOthers : ∀ k, k ≠ j → new[k]? = sets[k]?)
    (hSet : new[k]? = some (some t)) : k = j ∧ t = r ∨ sets[k]? = some (some t) := by
  by_cases hk : k = j
  · subst hk
    rw [hTarget, Option.some.injEq, Option.some.injEq] at hSet
    exact Or.inl ⟨rfl, hSet.symm⟩
  · exact Or.inr ((hOthers k hk).symm.trans hSet)

/-- A relaxation that changes nothing: the set of the target has nothing to
lose, or the source is not reached. -/
theorem relax?_eq_none {sets : DominatorSets} {i j : Nat} {s : NodeSet}
    (h : sets.relax? i j = none) (hSource : sets[i]? = some (some s)) (hBound : j < sets.size)
    (hOwn : ∀ t, sets[j]? = some (some t) → t.contains j = true) :
    ∃ t, sets[j]? = some (some t) ∧ ∀ k, t.contains k = true → k = j ∨ s.contains k = true := by
  have hTarget : sets[j]? = some sets[j] := Array.getElem?_eq_getElem hBound
  cases hSet : sets[j] with
  | none => simp [relax?, refine?, hSource, hTarget, hSet] at h
  | some t =>
      rw [hSet] at hTarget
      have hMeet : ¬ ((t.inter s).insert j).bits < t.bits := by
        intro hLess
        simp [relax?, refine?, hSource, hTarget, hLess] at h
      refine ⟨t, hTarget, ?_⟩
      intro k hk
      rw [← NodeSet.insert_inter_eq (hOwn t hTarget) hMeet] at hk
      simp only [NodeSet.contains_insert, NodeSet.contains_inter, Bool.or_eq_true,
        Bool.and_eq_true, decide_eq_true_eq] at hk
      rcases hk with ⟨-, hk⟩ | hk
      · exact Or.inr hk
      · exact Or.inl hk.symm

end DominatorSets

namespace FlowNode

variable {addresses : List Address}

theorem getElem?_of_position? {a : Address} {i : Nat} (h : position? addresses a = some i) :
    addresses[i]? = some a := by
  rw [position?, List.findRev?_eq_find?_reverse] at h
  obtain ⟨entry, hFound, rfl⟩ := Option.map_eq_some_iff.mp h
  have hMem := List.mem_reverse.mp (List.mem_of_find?_eq_some hFound)
  have hAddress : entry.1 = a := by simpa using List.find?_some hFound
  rw [← hAddress]
  exact List.mem_zipIdx_iff_getElem?.mp hMem

theorem exists_position?_of_mem {a : Address} (h : a ∈ addresses) :
    ∃ i, position? addresses a = some i := by
  obtain ⟨i, hi⟩ := List.mem_iff_getElem?.mp h
  cases hPosition : position? addresses a with
  | some j => exact ⟨j, rfl⟩
  | none =>
      rw [position?, List.findRev?_eq_find?_reverse, Option.map_eq_none_iff] at hPosition
      have hAbsent := List.find?_eq_none.mp hPosition (a, i)
        (List.mem_reverse.mpr (List.mem_zipIdx_iff_getElem?.mpr hi))
      simp at hAbsent

/-- The first position of an address is its only one, where no address is
there twice. -/
theorem position?_of_getElem? (hNodup : addresses.Nodup) {a : Address} {i : Nat}
    (h : addresses[i]? = some a) : position? addresses a = some i := by
  obtain ⟨j, hPosition⟩ := exists_position?_of_mem (List.mem_of_getElem? h)
  have hSame : addresses[i]? = addresses[j]? := h.trans (getElem?_of_position? hPosition).symm
  obtain ⟨hBound, -⟩ := List.getElem?_eq_some_iff.mp h
  rw [hPosition, (List.getElem?_inj hBound hNodup).mp hSame]

theorem lt_of_position? {a : Address} {i : Nat} (h : position? addresses a = some i) :
    i < addresses.length :=
  (List.getElem?_eq_some_iff.mp (getElem?_of_position? h)).1

@[simp] theorem ofIndex_entryPosition : ofIndex addresses (entryPosition addresses) = .entry := by
  simp [ofIndex, entryPosition]

@[simp] theorem ofIndex_exitPosition : ofIndex addresses (exitPosition addresses) = .exit := by
  simp [ofIndex, entryPosition, exitPosition]

theorem ofIndex_of_position? {a : Address} {i : Nat} (h : position? addresses a = some i) :
    ofIndex addresses i = .instr a := by
  simp [ofIndex, getElem?_of_position? h]

/-- An instruction has an index just if its address is one of the code. -/
theorem index_instr_eq_ok_iff {a : Address} {i : Nat} :
    (FlowNode.instr a).index addresses = .ok i ↔ position? addresses a = some i := by
  cases hPosition : position? addresses a with
  | none => simp [index, hPosition]
  | some j => simp [index, hPosition]

/-- A position is that of one node at most. Entry and exit stand behind all
instructions. -/
theorem ofIndex_of_index {node : FlowNode} {i : Nat} (h : node.index addresses = .ok i) :
    i < addresses.length + 2 ∧ ofIndex addresses i = node := by
  cases node with
  | entry =>
      simp only [index, Except.ok.injEq] at h
      subst h
      exact ⟨by simp [entryPosition], ofIndex_entryPosition⟩
  | exit =>
      simp only [index, Except.ok.injEq] at h
      subst h
      exact ⟨by simp [exitPosition], ofIndex_exitPosition⟩
  | instr a =>
      have hPosition := index_instr_eq_ok_iff.mp h
      have hBound := lt_of_position? hPosition
      exact ⟨by omega, ofIndex_of_position? hPosition⟩

/-- Every position is that of a node, where no address is there twice. -/
theorem index_ofIndex (hNodup : addresses.Nodup) {i : Nat} (h : i < addresses.length + 2) :
    (ofIndex addresses i).index addresses = .ok i := by
  unfold ofIndex
  split
  · rename_i a hAddress
    simp [index, position?_of_getElem? hNodup hAddress]
  · rename_i hNone
    have hBound := List.getElem?_eq_none_iff.mp hNone
    split
    · rename_i hEntry
      simp [index, hEntry]
    · rename_i hEntry
      simp only [entryPosition] at hEntry
      simp only [index, exitPosition, Except.ok.injEq]
      omega

/-- Two positions are never those of one node, where no address is there
twice. -/
theorem ofIndex_inj (hNodup : addresses.Nodup) {i j : Nat} (hi : i < addresses.length + 2)
    (hj : j < addresses.length + 2) (h : ofIndex addresses i = ofIndex addresses j) :
    i = j := by
  have hIndex := index_ofIndex hNodup hi
  rw [h, index_ofIndex hNodup hj] at hIndex
  exact (Except.ok.inj hIndex).symm

/-- Every node of the code has a position. -/
theorem index_of_hasNode {c : Code} {node : FlowNode} (h : c.HasNode node) :
    ∃ i, node.index c.addresses = .ok i := by
  cases node with
  | entry => exact ⟨_, rfl⟩
  | exit => exact ⟨_, rfl⟩
  | instr a =>
      obtain ⟨i, hPosition⟩ := exists_position?_of_mem h
      exact ⟨i, index_instr_eq_ok_iff.mpr hPosition⟩

theorem hasNode_of_index {c : Code} {node : FlowNode} {i : Nat}
    (h : node.index c.addresses = .ok i) : c.HasNode node := by
  cases node with
  | entry => trivial
  | exit => trivial
  | instr a => exact List.mem_of_getElem? (getElem?_of_position? (index_instr_eq_ok_iff.mp h))

end FlowNode

namespace DominatorWork

variable {addresses targets : List Address} {source : Nat} {w new : DominatorWork}
  {P : DominatorWork → Prop}

/-- What relaxations along the followed edges keep is kept by following all
of them. Each invariant of the worklist is proved from this by one step. -/
theorem spread_invariant (h : spread addresses source targets w = .ok new) (hStart : P w)
    (hStep : ∀ (w : DominatorWork) (sets : DominatorSets) (target : Address) (j : Nat),
      FlowNode.position? addresses target = some j → w.sets.relax? source j = some sets →
      P w → P ⟨sets, target :: w.pending⟩) : P new := by
  induction targets generalizing w with
  | nil =>
      simp only [spread, Except.ok.injEq] at h
      exact h ▸ hStart
  | cons target rest ih =>
      rw [spread] at h
      cases hPosition : FlowNode.position? addresses target with
      | none => simp [hPosition] at h
      | some j =>
          simp only [hPosition] at h
          cases hRelax : w.sets.relax? source j with
          | none =>
              rw [hRelax] at h
              exact ih h hStart
          | some sets =>
              rw [hRelax] at h
              exact ih h (hStep w sets target j hPosition hRelax hStart)

/-- The same for a visit, where the edge to the exit makes nothing wait. All
that is shown of a run is shown of these two steps. -/
theorem visit_invariant {c : Code} {ignoreExceptions : Bool} {p : PlacedInstr}
    (h : visit c ignoreExceptions p source w = .ok new) (hStart : P w)
    (hExit : ∀ sets, w.sets.relax? source (FlowNode.exitPosition c.addresses) = some sets →
      P ⟨sets, w.pending⟩)
    (hStep : ∀ (w : DominatorWork) (sets : DominatorSets) (target : Address) (j : Nat),
      FlowNode.position? c.addresses target = some j → w.sets.relax? source j = some sets →
      P w → P ⟨sets, target :: w.pending⟩) : P new := by
  cases hSuccessors : c.successors p with
  | error e => simp [visit, hSuccessors] at h
  | ok successors =>
      simp only [visit, hSuccessors] at h
      refine spread_invariant h ?_ hStep
      split
      · cases hRelax : w.sets.relax? source (FlowNode.exitPosition c.addresses) with
        | none => exact hStart
        | some sets => exact hExit sets hRelax
      · exact hStart

end DominatorWork

theorem Address.ne_of_lt {a b : Address} (h : a < b) : a ≠ b := by
  rintro rfl
  exact Nat.lt_irrefl a.offset h

namespace Code

/-- What is found at an address is an instruction of the code that stands
there. -/
theorem of_instrAt {c : Code} {a : Address} {p : PlacedInstr} (h : c.instrAt a = .ok p) :
    p ∈ c.instrs ∧ p.address = a := by
  cases hFound : c.instrAt? a with
  | none => simp [instrAt, hFound] at h
  | some q =>
      simp only [instrAt, hFound, Except.ok.injEq] at h
      subst h
      exact ⟨List.mem_of_find?_eq_some hFound, by simpa using List.find?_some hFound⟩

/-- An address is that of one instruction, where no address is there
twice. -/
theorem eq_of_address_eq {c : Code} (hNodup : c.addresses.Nodup) {p q : PlacedInstr}
    (hp : p ∈ c.instrs) (hq : q ∈ c.instrs) (h : q.address = p.address) : q = p := by
  obtain ⟨i, hi⟩ := List.mem_iff_getElem?.mp hp
  obtain ⟨j, hj⟩ := List.mem_iff_getElem?.mp hq
  have hFirst := FlowNode.position?_of_getElem? hNodup (a := p.address) (i := i)
    (by simp [addresses, hi])
  have hSecond := FlowNode.position?_of_getElem? hNodup (a := q.address) (i := j)
    (by simp [addresses, hj])
  rw [h, hFirst, Option.some.injEq] at hSecond
  rw [← hSecond, hi, Option.some.injEq] at hj
  exact hj.symm

end Code

end JvmCalls
