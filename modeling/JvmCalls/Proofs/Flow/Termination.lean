import JvmCalls.Proofs.Flow.Dominance

/-! The work of an analysis ends on every code, one with several
instructions at an address or with handlers that cover themselves included.
An instruction waits again whenever its set has changed, so there may be
more visits than instructions. But a set that changes loses a member, so the
members of all sets and the waiting instructions, added up, become fewer
with every visit. -/
namespace JvmCalls

namespace NodeSet

/-- The members below a bound. -/
def members (s : NodeSet) (bound : Nat) : Finset Nat :=
  (Finset.range bound).filter fun k => s.contains k = true

@[simp] theorem mem_members {s : NodeSet} {bound k : Nat} :
    k ∈ s.members bound ↔ k < bound ∧ s.contains k = true := by
  simp [members]

theorem card_members_le (s : NodeSet) (bound : Nat) : (s.members bound).card ≤ bound := by
  calc (s.members bound).card ≤ (Finset.range bound).card := Finset.card_filter_le _ _
    _ = bound := Finset.card_range bound

/-- A subset that is the smaller number lacks a member. A number compares
sets only where one contains the other. -/
theorem exists_of_bits_lt {r t : NodeSet} (hSubset : ∀ k, r.contains k = true → t.contains k = true)
    (h : r.bits < t.bits) : ∃ k, t.contains k = true ∧ r.contains k = false := by
  by_contra hNone
  have hSame : r.bits = t.bits := by
    apply Nat.eq_of_testBit_eq
    intro k
    show r.contains k = t.contains k
    cases hr : r.contains k with
    | true => exact (hSubset k hr).symm
    | false =>
        cases ht : t.contains k with
        | false => rfl
        | true => exact False.elim (hNone ⟨k, ht, hr⟩)
  omega

/-- So it has fewer members, if none of them is behind the bound. -/
theorem card_members_lt {r t : NodeSet} {bound : Nat}
    (hSubset : ∀ k, r.contains k = true → t.contains k = true)
    (hBound : ∀ k, t.contains k = true → k < bound) (h : r.bits < t.bits) :
    (r.members bound).card < (t.members bound).card := by
  obtain ⟨k, hMem, hLost⟩ := exists_of_bits_lt hSubset h
  refine Finset.card_lt_card (Finset.ssubset_iff_subset_ne.mpr ⟨?_, ?_⟩)
  · intro m hm
    rw [mem_members] at hm ⊢
    exact ⟨hm.1, hSubset m hm.2⟩
  · intro hSame
    have hKept : k ∈ r.members bound := by
      rw [hSame, mem_members]
      exact ⟨hBound k hMem, hMem⟩
    simp [hLost] at hKept

/-- The number of members below a bound. -/
def count (s : NodeSet) (bound : Nat) : Nat := (s.toList bound).length

/-- Counting bits is counting members. -/
theorem card_members (s : NodeSet) (bound : Nat) : (s.members bound).card = s.count bound := by
  rw [count, toList, ← List.countP_eq_length_filter, members, Finset.card_filter]
  induction bound with
  | zero => rfl
  | succ n ih =>
      rw [Finset.sum_range_succ, ih, List.range_succ, List.countP_append, List.countP_singleton]

end NodeSet

namespace DominatorSets

variable {sets new : DominatorSets} {i j : Nat}

/-- Every set holds its own node, and nothing that is not a node. An
analysis keeps this on any code, even where addresses are there twice. -/
structure Confined (sets : DominatorSets) : Prop where
  own : ∀ (i : Nat) (s : NodeSet), sets[i]? = some (some s) → s.contains i = true
  bounded : ∀ (i : Nat) (s : NodeSet) (k : Nat), sets[i]? = some (some s) →
    s.contains k = true → k < sets.size

/-- A relaxation keeps it, as it adds nothing to a set but the node
itself. -/
theorem Confined.relax? (hConfined : sets.Confined) (h : sets.relax? i j = some new) :
    new.Confined := by
  obtain ⟨s, r, hSource, hTarget, hSize, hOthers, hMembers⟩ := relax?_eq_some h
  constructor
  · intro k t hSet
    rcases set_of_relax? hTarget hOthers hSet with ⟨rfl, rfl⟩ | hOld
    · exact (hMembers k).mpr (Or.inl rfl)
    · exact hConfined.own k t hOld
  · intro k t m hSet hMem
    rcases set_of_relax? hTarget hOthers hSet with ⟨rfl, rfl⟩ | hOld
    · rcases (hMembers m).mp hMem with rfl | ⟨hSourceMem, -⟩
      · exact (Array.getElem?_eq_some_iff.mp hTarget).1
      · exact hSize ▸ hConfined.bounded i s m hSource hSourceMem
    · exact hSize ▸ hConfined.bounded k t m hOld hMem

/-- Follows an edge in place: the set of the target is replaced in any case,
and the number of its members tells whether it has changed. -/
def propagate (sets : DominatorSets) (i j : Nat) : DominatorSets × Bool :=
  match sets[i]?, sets[j]? with
  | some (some s), some (some t) =>
    let meet := (t.inter s).insert j
    (sets.setIfInBounds j (some meet), meet.count sets.size != t.count sets.size)
  | some (some s), some none => (sets.setIfInBounds j (some (s.insert j)), true)
  | _, _ => (sets, false)

theorem setIfInBounds_of_getElem? {t : Option NodeSet} (h : sets[j]? = some t) :
    sets.setIfInBounds j t = sets := by
  apply Array.ext_getElem?
  intro k
  by_cases hk : j = k
  · subst hk
    rw [Array.getElem?_setIfInBounds_self_of_lt (Array.getElem?_eq_some_iff.mp h).1, h]
  · rw [Array.getElem?_setIfInBounds_ne hk]

/-- A set that an edge makes the smaller number has fewer members
afterwards, as it gains none. -/
theorem Confined.count_lt (hConfined : sets.Confined) {s t : NodeSet}
    (hTarget : sets[j]? = some (some t)) (hLess : ((t.inter s).insert j).bits < t.bits) :
    ((t.inter s).insert j).count sets.size < t.count sets.size := by
  have hSubset : ∀ k, ((t.inter s).insert j).contains k = true → t.contains k = true := by
    intro k hk
    simp only [NodeSet.contains_insert, NodeSet.contains_inter, Bool.or_eq_true,
      Bool.and_eq_true, decide_eq_true_eq] at hk
    rcases hk with ⟨hMem, -⟩ | rfl
    · exact hMem
    · exact hConfined.own _ t hTarget
  rw [← NodeSet.card_members, ← NodeSet.card_members]
  exact NodeSet.card_members_lt hSubset (fun k => hConfined.bounded j t k hTarget) hLess

/-- To compare sets as numbers and to count their members is the same, as a
set that changes in an analysis has lost members and gained none. -/
theorem Confined.propagate_eq (hConfined : sets.Confined) (i j : Nat) :
    sets.propagate i j = match sets.relax? i j with
      | some new => (new, true)
      | none => (sets, false) := by
  unfold propagate DominatorSets.relax?
  rcases hSource : sets[i]? with _ | _ | s
  · rfl
  · cases sets[j]? with
    | none => rfl
    | some target => cases target <;> rfl
  · rcases hTarget : sets[j]? with _ | _ | t
    · rfl
    · rfl
    -- Only where both ends have a set do the two tests differ.
    · simp only [refine?]
      by_cases hLess : ((t.inter s).insert j).bits < t.bits
      · have hFewer := hConfined.count_lt hTarget hLess
        simp [hLess, Nat.ne_of_lt hFewer]
      · have hOwn := hConfined.own j t hTarget
        rw [NodeSet.insert_inter_eq hOwn hLess, setIfInBounds_of_getElem? hTarget,
          if_neg (Nat.lt_irrefl _)]
        simp

/-- A set that a relaxation changes becomes the smaller number. This is the
test by which the worklist sees a change. -/
theorem bits_lt_of_relax? {r t : NodeSet} (h : sets.relax? i j = some new)
    (hOld : sets[j]? = some (some t)) (hNew : new[j]? = some (some r)) : r.bits < t.bits := by
  obtain ⟨s, -, hSource, -⟩ := relax?_eq_some h
  have hBound : j < sets.size := (Array.getElem?_eq_some_iff.mp hOld).1
  simp only [DominatorSets.relax?, hSource, hOld, refine?, Option.map_eq_some_iff,
    Option.ite_none_right_eq_some, Option.some.injEq] at h
  obtain ⟨meet, ⟨hLess, rfl⟩, rfl⟩ := h
  rw [Array.getElem?_setIfInBounds_self_of_lt hBound, Option.some.injEq, Option.some.injEq] at hNew
  exact hNew ▸ hLess

/-- How much the set of a node can still lose. A node without a set comes
before one that has all nodes in its set. -/
def room (sets : DominatorSets) (i : Nat) : Nat :=
  match sets[i]? with
  | some (some s) => (s.members sets.size).card
  | _ => sets.size + 1

theorem room_of_set {s : NodeSet} (h : sets[i]? = some (some s)) :
    sets.room i = (s.members sets.size).card := by
  simp [room, h]

theorem room_le (sets : DominatorSets) (i : Nat) : sets.room i ≤ sets.size + 1 := by
  unfold room
  split
  · exact Nat.le_succ_of_le (NodeSet.card_members_le _ _)
  · exact Nat.le_refl _

/-- How much all sets can still lose. -/
def totalRoom (sets : DominatorSets) : Nat := ∑ i ∈ Finset.range sets.size, sets.room i

/-- The node whose set changes has less room: it had no set before, or its
set loses a member. -/
theorem room_lt_of_relax? (hConfined : sets.Confined) (h : sets.relax? i j = some new) :
    new.room j < sets.room j := by
  obtain ⟨s, r, -, hTarget, hSize, -, hMembers⟩ := relax?_eq_some h
  rw [room_of_set hTarget, hSize]
  have hBound : j < sets.size := hSize ▸ (Array.getElem?_eq_some_iff.mp hTarget).1
  cases hSet : sets[j] with
  | none =>
      have hRoom : sets.room j = sets.size + 1 := by
        simp [room, Array.getElem?_eq_getElem hBound, hSet]
      rw [hRoom]
      exact Nat.lt_succ_of_le (NodeSet.card_members_le r sets.size)
  | some t =>
      have hOld : sets[j]? = some (some t) := by rw [Array.getElem?_eq_getElem hBound, hSet]
      have hSubset : ∀ k, r.contains k = true → t.contains k = true := by
        intro k hk
        rcases (hMembers k).mp hk with rfl | ⟨-, hMem⟩
        · exact hConfined.own k t hOld
        · exact hMem t hOld
      rw [room_of_set hOld]
      exact NodeSet.card_members_lt hSubset (fun k => hConfined.bounded j t k hOld)
        (bits_lt_of_relax? h hOld hTarget)

/-- All sets together have less room, as no other set changes. This is why
an analysis ends. -/
theorem totalRoom_lt_of_relax? (hConfined : sets.Confined) (h : sets.relax? i j = some new) :
    new.totalRoom < sets.totalRoom := by
  obtain ⟨-, r, -, hTarget, hSize, hOthers, -⟩ := relax?_eq_some h
  have hLess := room_lt_of_relax? hConfined h
  have hBound : j < sets.size := hSize ▸ (Array.getElem?_eq_some_iff.mp hTarget).1
  unfold totalRoom
  rw [hSize]
  refine Finset.sum_lt_sum ?_ ⟨j, Finset.mem_range.mpr hBound, hLess⟩
  intro k _
  by_cases hk : k = j
  · exact hk ▸ Nat.le_of_lt hLess
  · simp [room, hOthers k hk, hSize]

end DominatorSets

namespace DominatorWork

variable {c : Code} {ignoreExceptions : Bool} {addresses targets : List Address} {source : Nat}
  {p : PlacedInstr} {w middle new last : DominatorWork}

/-- What all sets can lose and what waits. It bounds the number of turns
that are left. -/
def potential (w : DominatorWork) : Nat := w.sets.totalRoom + w.pending.length

/-- The work has become no more, and its sets are still well formed. It is
what each edge of a visit preserves. -/
structure Spends (new w : DominatorWork) : Prop where
  confined : new.sets.Confined
  le : new.potential ≤ w.potential

/-- An instruction waits only because its set has lost something. -/
theorem Spends.push (h : Spends middle w) {sets : DominatorSets} {target : Address} {j : Nat}
    (hRelax : middle.sets.relax? source j = some sets) :
    Spends ⟨sets, target :: middle.pending⟩ w := by
  have hLess := DominatorSets.totalRoom_lt_of_relax? h.confined hRelax
  have hLe := h.le
  refine ⟨h.confined.relax? hRelax, ?_⟩
  simp only [potential, List.length_cons] at hLe ⊢
  omega

/-- Following edges pays for each instruction that comes to wait with a
member that its set has lost. -/
theorem spread_spends (hConfined : w.sets.Confined)
    (h : spread addresses source targets w = .ok new) : Spends new w :=
  spread_invariant (P := fun middle => Spends middle w) h ⟨hConfined, Nat.le_refl _⟩
    fun _ _ _ _ _ hRelax hSoFar => hSoFar.push hRelax

/-- A visit makes no more work than it takes away from the sets. -/
theorem visit_spends (hConfined : w.sets.Confined)
    (h : visit c ignoreExceptions p source w = .ok new) : Spends new w := by
  refine visit_invariant (P := fun middle => Spends middle w) h ⟨hConfined, Nat.le_refl _⟩ ?_
    (fun _ _ _ _ _ hRelax hSoFar => hSoFar.push hRelax)
  intro sets hRelax
  have hLess := DominatorSets.totalRoom_lt_of_relax? hConfined hRelax
  refine ⟨hConfined.relax? hRelax, ?_⟩
  simp only [potential]
  omega

/-- One turn of the work: an instruction is visited that stands where the
next one waits. Where several stand there, it may be any of them. -/
inductive Turn (c : Code) (ignoreExceptions : Bool) : DominatorWork → DominatorWork → Prop where
  | visit {sets : DominatorSets} {rest : List Address} {p : PlacedInstr} {source : Nat}
      {next : DominatorWork} (hInstr : p ∈ c.instrs)
      (hPosition : FlowNode.position? c.addresses p.address = some source)
      (hVisit : DominatorWork.visit c ignoreExceptions p source ⟨sets, rest⟩ = .ok next) :
      Turn c ignoreExceptions ⟨sets, p.address :: rest⟩ next

/-- A number of turns, one after the other. Nothing asks that they are the
turns of a run, so that what holds of them holds of any order. -/
inductive Turns (c : Code) (ignoreExceptions : Bool) :
    DominatorWork → DominatorWork → Nat → Prop where
  | zero (w : DominatorWork) : Turns c ignoreExceptions w w 0
  | succ {w middle last : DominatorWork} {n : Nat} (first : Turn c ignoreExceptions w middle)
      (others : Turns c ignoreExceptions middle last n) : Turns c ignoreExceptions w last (n + 1)

/-- A turn takes the visited instruction away and adds no more than the sets
have lost. So the potential falls. -/
theorem Turn.potential_lt (h : Turn c ignoreExceptions w new) (hConfined : w.sets.Confined) :
    new.sets.Confined ∧ new.potential < w.potential := by
  cases h with
  | @visit sets rest p source _ hInstr hPosition hVisit =>
      obtain ⟨hNew, hLe⟩ := visit_spends (w := ⟨sets, rest⟩) hConfined hVisit
      refine ⟨hNew, ?_⟩
      simp only [potential, List.length_cons] at hLe ⊢
      omega

/-- There are never more turns than the potential at the start, by one step
after the other. -/
theorem Turns.length_le_potential {n : Nat} (h : Turns c ignoreExceptions w last n)
    (hConfined : w.sets.Confined) : n ≤ w.potential := by
  induction h with
  | zero => exact Nat.zero_le _
  | succ first others ih =>
      obtain ⟨hMiddle, hLess⟩ := first.potential_lt hConfined
      have hOthers := ih hMiddle
      omega

/-- A run takes turns until it fails or nothing waits. The proof follows the
recursion of the run, one turn for each call. -/
theorem run_turns (c : Code) (ignoreExceptions : Bool) (w : DominatorWork) :
    ∃ last n, Turns c ignoreExceptions w last n ∧
      ((∃ e, (run c ignoreExceptions w).value = .error e) ∨
        last.pending = [] ∧ (run c ignoreExceptions w).value = .ok last.sets) := by
  fun_induction run c ignoreExceptions w with
  | case1 sets => exact ⟨_, 0, .zero _, Or.inr ⟨rfl, rfl⟩⟩
  | case2 => exact ⟨_, 0, .zero _, Or.inl ⟨_, rfl⟩⟩
  | case3 => exact ⟨_, 0, .zero _, Or.inl ⟨_, rfl⟩⟩
  | case4 => exact ⟨_, 0, .zero _, Or.inl ⟨_, rfl⟩⟩
  | case5 sets a rest source p hFound hPosition visited next hVisit outcome ih =>
      obtain ⟨hInstr, rfl⟩ := Code.of_instrAt hFound
      obtain ⟨last, n, hTurns, hOutcome⟩ := ih
      exact ⟨last, n + 1, .succ (.visit hInstr hPosition hVisit) hTurns, hOutcome⟩

/-- The journal of a run names one instruction for each visit. So the number
of visits can be read off the journal. -/
theorem length_events_run (hConfined : w.sets.Confined) :
    (run c ignoreExceptions w).events.length ≤ w.potential := by
  fun_induction run c ignoreExceptions w with
  | case1 => exact Nat.zero_le _
  | case2 => exact Nat.zero_le _
  | case3 => exact Nat.zero_le _
  | case4 =>
      simp only [potential, List.length_cons, List.length_nil]
      omega
  | case5 sets a rest source p hFound hPosition visited next hVisit outcome ih =>
      obtain ⟨hInstr, rfl⟩ := Code.of_instrAt hFound
      obtain ⟨hNext, hLess⟩ := Turn.potential_lt (.visit hInstr hPosition hVisit) hConfined
      have hRest : outcome.events.length ≤ next.potential := ih hNext
      simp only [List.length_cons]
      omega

end DominatorWork

namespace DominatorTable

variable {c : Code} {ignoreExceptions : Bool} {addresses : List Address}

/-- The sets are well formed before the first edge. -/
theorem initialSets_confined (addresses : List Address) : (initialSets addresses).Confined where
  own i s hSet := by
    obtain ⟨rfl, rfl⟩ := getElem?_initialSets hSet
    simp
  bounded i s k hSet hMem := by
    obtain ⟨rfl, rfl⟩ := getElem?_initialSets hSet
    obtain rfl : FlowNode.entryPosition addresses = k := by simpa using hMem
    simp [initialSets, FlowNode.entryPosition]

/-- The entry has one dominator, and no other node is reached. -/
theorem totalRoom_initialSets (addresses : List Address) :
    (initialSets addresses).totalRoom ≤ (addresses.length + 2) * (addresses.length + 2) := by
  have hSize : (initialSets addresses).size = addresses.length + 2 := by simp [initialSets]
  have hEntry : (initialSets addresses).room (FlowNode.entryPosition addresses) ≤ 1 := by
    have hSet : (initialSets addresses)[FlowNode.entryPosition addresses]? =
        some (some (NodeSet.empty.insert (FlowNode.entryPosition addresses))) :=
      Array.getElem?_setIfInBounds_self_of_lt (by simp [FlowNode.entryPosition])
    rw [DominatorSets.room_of_set hSet]
    refine (Finset.card_le_card (t := {FlowNode.entryPosition addresses}) ?_).trans_eq
      (Finset.card_singleton _)
    intro k hk
    simpa [eq_comm] using (NodeSet.mem_members.mp hk).2
  have hMem : FlowNode.entryPosition addresses ∈ Finset.range (addresses.length + 2) := by
    simp [FlowNode.entryPosition]
  have hOthers :
      ∑ i ∈ (Finset.range (addresses.length + 2)).erase (FlowNode.entryPosition addresses),
        (initialSets addresses).room i ≤ (addresses.length + 1) * (addresses.length + 3) := by
    refine (Finset.sum_le_card_nsmul _ _ (addresses.length + 3) ?_).trans_eq ?_
    · intro i _
      have hRoom := DominatorSets.room_le (initialSets addresses) i
      rw [hSize] at hRoom
      exact hRoom
    · rw [Finset.card_erase_of_mem hMem, Finset.card_range]
      rfl
  rw [DominatorSets.totalRoom, hSize, ← Finset.add_sum_erase _ _ hMem]
  calc _ ≤ 1 + (addresses.length + 1) * (addresses.length + 3) := Nat.add_le_add hEntry hOthers
    _ = (addresses.length + 2) * (addresses.length + 2) := by ring

/-- After the edges of the entry, there is no more to do than there are
pairs of nodes. -/
theorem start_potential {work : DominatorWork}
    (h : DominatorWork.start c ignoreExceptions = .ok work) :
    work.sets.Confined ∧ work.potential ≤ (c.instrs.length + 2) * (c.instrs.length + 2) := by
  obtain ⟨hConfined, hLe⟩ := DominatorWork.spread_spends (initialSets_confined c.addresses) h
  have hInitial := totalRoom_initialSets c.addresses
  have hLength : c.addresses.length = c.instrs.length := by simp [Code.addresses]
  rw [hLength] at hInitial
  exact ⟨hConfined, hLe.trans hInitial⟩

/-- The journal of an analysis is no longer than its turns. -/
theorem length_events_ofCode (c : Code) (ignoreExceptions : Bool) :
    (ofCode c ignoreExceptions).events.length ≤
      (c.instrs.length + 2) * (c.instrs.length + 2) := by
  unfold ofCode
  cases hStart : DominatorWork.start c ignoreExceptions with
  | error e => simp
  | ok work =>
      obtain ⟨hConfined, hLe⟩ := start_potential hStart
      simp only [Traced.events_bind, Traced.events_pure, List.append_nil]
      exact (DominatorWork.length_events_run hConfined).trans hLe

end DominatorTable

namespace Dominators

/-- The work of an analysis ends, whatever the code, the mode and the state
before. It takes at most as many turns as there are pairs of nodes,
also where it is left open which of several instructions at one address is
visited. -/
theorem analyze_terminates (d : Dominators) (signature : MethodSignature) (c : Code) :
    (∀ w, DominatorWork.start c d.ignoreExceptions = .ok w →
      (∀ last n, DominatorWork.Turns c d.ignoreExceptions w last n →
        n ≤ (c.instrs.length + 2) * (c.instrs.length + 2)) ∧
      ∃ last n, DominatorWork.Turns c d.ignoreExceptions w last n ∧
        ((∃ e, (w.run c d.ignoreExceptions).value = .error e) ∨
          last.pending = [] ∧ (w.run c d.ignoreExceptions).value = .ok last.sets)) ∧
    (d.analyze signature c).events.length ≤
      (c.instrs.length + 2) * (c.instrs.length + 2) + 1 := by
  constructor
  · intro w hStart
    obtain ⟨hConfined, hLe⟩ := DominatorTable.start_potential hStart
    refine ⟨?_, DominatorWork.run_turns c d.ignoreExceptions w⟩
    intro last n hTurns
    exact (hTurns.length_le_potential hConfined).trans hLe
  · have hEvents := DominatorTable.length_events_ofCode c d.ignoreExceptions
    unfold analyze
    simp only [Traced.events_bind, List.length_append]
    split <;> simpa [Traced.log, Traced.emit, Nat.add_comm] using hEvents

end Dominators

/-- Two instructions that lead to themselves share an address, and a handler
covers itself. -/
def tangledCode : Code where
  maxStack := 0
  maxLocals := 0
  instrs := [⟨⟨0⟩, .other 0 0⟩, ⟨⟨0⟩, .goto 0⟩, ⟨⟨3⟩, .ret .void⟩]
  handlers := [⟨⟨0⟩, ⟨4⟩, ⟨0⟩, none⟩, ⟨⟨3⟩, ⟨0⟩, ⟨3⟩, none⟩]
  lines := []

theorem tangledCode_terminates :
    ∃ w, DominatorWork.start tangledCode false = .ok w ∧ w.pending = [⟨0⟩] ∧
      (∀ last n, DominatorWork.Turns tangledCode false w last n → n ≤ 25) ∧
      (Dominators.analyze (.new false) (.of "t/A" "f" "()V") tangledCode).events.length ≤ 26 := by
  have hStart : DominatorWork.start tangledCode false =
      .ok ⟨#[none, some ⟨10⟩, none, some ⟨8⟩, none], [⟨0⟩]⟩ := by cbv
  obtain ⟨hWork, hEvents⟩ :=
    Dominators.analyze_terminates (.new false) (.of "t/A" "f" "()V") tangledCode
  exact ⟨_, hStart, rfl, (hWork _ hStart).1, hEvents⟩

end JvmCalls
