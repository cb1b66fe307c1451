import JvmCalls.Proofs.Breadth
import JvmCalls.Proofs.CallGraph.Representation

/-! The methods that call a method and those that it calls, up to a number
of calls away. Walks go over positions, and as every method has one
position, their steps are the calls between methods. So a bounded walk finds
a method exactly if a chain of so few calls leads to it. -/
namespace JvmCalls.CallGraph

/-- A call of the graph goes from one method to the other. Positions do not
occur here, so that graphs with other positions can be compared. -/
def Invokes (g : CallGraph) (caller target : MethodSignature) : Prop :=
  ∃ c ∈ g.calls, c.callerSignature = caller ∧ c.targetSignature = target

variable {g : CallGraph}

theorem mem_calls {c : Call} : c ∈ g.calls ↔ ∃ e ∈ g.edges, e.call = c := by
  simp [calls]

theorem mem_targets {i j : Nat} :
    j ∈ g.targets i ↔ ∃ e ∈ g.edges, e.source = i ∧ e.target = j := by
  simp [targets, and_assoc]

theorem mem_sources {i j : Nat} :
    j ∈ g.sources i ↔ ∃ e ∈ g.edges, e.target = i ∧ e.source = j := by
  simp [sources, and_assoc]

/-- The positions of a graph are those that hold a method. -/
theorem mem_positions {i : Nat} : i ∈ g.positions ↔ ∃ s, g.methods[i]? = some s := by
  simp [positions, Array.getElem?_eq_some_iff]

/-- Every method has one position, so that a walk over positions is one over
methods. -/
theorem Indexed.labelling (h : g.Indexed) : Reach.Labelling (g.methods[·]?) g.positions where
  mem_iff _ := mem_positions
  distinct := h.position_inj

/-- Going from position to position along the edges is going from method to
method along the calls. -/
theorem Indexed.targets_follow (h : g.Indexed) :
    Reach.Follows (g.methods[·]?) g.targets g.Invokes where
  labels i j hTarget := by
    obtain ⟨e, he, rfl, rfl⟩ := mem_targets.mp hTarget
    exact ⟨_, _, h.source e he, h.target e he, e.call, mem_calls.mpr ⟨e, he, rfl⟩, rfl, rfl⟩
  steps s t hInvokes := by
    obtain ⟨c, hc, rfl, rfl⟩ := hInvokes
    obtain ⟨e, he, rfl⟩ := mem_calls.mp hc
    exact ⟨_, _, h.source e he, h.target e he, mem_targets.mpr ⟨e, he, rfl, rfl⟩⟩

/-- Going against the edges is going from a called method to its callers. -/
theorem Indexed.sources_follow (h : g.Indexed) :
    Reach.Follows (g.methods[·]?) g.sources (Function.swap g.Invokes) where
  labels i j hSource := by
    obtain ⟨e, he, rfl, rfl⟩ := mem_sources.mp hSource
    exact ⟨_, _, h.target e he, h.source e he, e.call, mem_calls.mpr ⟨e, he, rfl⟩, rfl, rfl⟩
  steps t s hInvokes := by
    obtain ⟨c, hc, rfl, rfl⟩ := hInvokes
    obtain ⟨e, he, rfl⟩ := mem_calls.mp hc
    exact ⟨_, _, h.target e he, h.source e he, mem_sources.mpr ⟨e, he, rfl, rfl⟩⟩

/-- A walk finds the other methods to which so many steps lead as the bound
allows. It serves callers and callees alike, as they differ in the direction
of steps only. -/
theorem Indexed.mem_walk (h : g.Indexed) {next : Nat → List Nat}
    {R : MethodSignature → MethodSignature → Prop} (hFollows : Reach.Follows (g.methods[·]?) next R)
    {s t : MethodSignature} {bound : Option Nat} :
    t ∈ g.walk next s bound ↔
      t ≠ s ∧ ∃ n, (∀ k ∈ bound, n ≤ k) ∧ Reach.Steps R s t n := by
  unfold walk
  cases hFind : g.find? s with
  | none =>
      refine iff_of_false List.not_mem_nil ?_
      rintro ⟨hOther, n, -, hSteps⟩
      obtain ⟨_, hFirst⟩ := hSteps.exists_first hOther
      obtain ⟨i, _, hs, -⟩ := hFollows.steps _ _ hFirst
      rw [find?, (h.index s i).mpr hs] at hFind
      cases hFind
  | some i =>
      have hs : g.methods[i]? = some s := (h.index s i).mp hFind
      have hDistinct : g.positions.Nodup := List.nodup_range
      simp only [mem_sortedDistinct, List.mem_filterMap,
        Reach.mem_within_start hDistinct (hFollows.closed h.labelling)]
      constructor
      · rintro ⟨j, ⟨hOther, n, hBound, hSteps⟩, ht⟩
        refine ⟨?_, n, hBound, (hFollows.steps_iff h.labelling hs ht).mp hSteps⟩
        rintro rfl
        exact hOther (h.position_inj ht hs)
      · rintro ⟨hOther, n, hBound, hSteps⟩
        obtain ⟨_, hLast⟩ := hSteps.exists_last hOther
        obtain ⟨_, j, -, ht, -⟩ := hFollows.steps _ _ hLast
        refine ⟨j, ⟨?_, n, hBound, (hFollows.steps_iff h.labelling hs ht).mpr hSteps⟩, ht⟩
        rintro rfl
        exact hOther (Option.some.inj (ht.symm.trans hs))

/-- The callees of a method, as far as the bound allows. The method itself
is not one of them, even if it calls itself. -/
theorem Indexed.mem_calleesOf (h : g.Indexed) {s t : MethodSignature} {bound : Option Nat} :
    t ∈ g.calleesOf s bound ↔
      t ≠ s ∧ ∃ n, (∀ k ∈ bound, n ≤ k) ∧ Reach.Steps g.Invokes s t n :=
  h.mem_walk h.targets_follow

/-- The callers of a method are found by the same walk against the calls. -/
theorem Indexed.mem_callersOf (h : g.Indexed) {s t : MethodSignature} {bound : Option Nat} :
    t ∈ g.callersOf s bound ↔
      t ≠ s ∧ ∃ n, (∀ k ∈ bound, n ≤ k) ∧ Reach.Steps g.Invokes t s n := by
  rw [callersOf, h.mem_walk h.sources_follow]
  simp only [Reach.steps_swap_iff]

/-- A method is among the callees of another one exactly if at least one
call and not more than the bound allows lead to it, and the callers of a
method are the methods among whose callees it is. A walk has one turn for
its start and for each method that it enters, and never more turns than
there are methods, whatever calls there are. -/
theorem walks_follow_calls (h : Built g) (s t : MethodSignature) (bound : Option Nat) :
    (t ∈ g.calleesOf s bound ↔
      t ≠ s ∧ ∃ n, 1 ≤ n ∧ (∀ k ∈ bound, n ≤ k) ∧ Reach.Steps g.Invokes s t n) ∧
    (t ∈ g.callersOf s bound ↔ s ∈ g.calleesOf t bound) ∧
    ∀ next i, g.find? s = some i →
      (∀ last n, Reach.Steps (Reach.Turn next bound) (g.positions.erase i, [(i, 0)]) last n →
        n ≤ g.methodCount) ∧
      ∃ left, Reach.Steps (Reach.Turn next bound) (g.positions.erase i, [(i, 0)]) (left, [])
        (1 + (Reach.within next bound (g.positions.erase i) [(i, 0)]).length) := by
  have hIndexed := h.indexed
  refine ⟨?_, ?_, ?_⟩
  · rw [hIndexed.mem_calleesOf]
    refine and_congr_right fun hOther => exists_congr fun n => ?_
    constructor
    · rintro ⟨hBound, hSteps⟩
      exact ⟨hSteps.pos hOther, hBound, hSteps⟩
    · rintro ⟨-, hBound, hSteps⟩
      exact ⟨hBound, hSteps⟩
  · rw [hIndexed.mem_callersOf, hIndexed.mem_calleesOf, ne_comm]
  · intro next i hFind
    have hMem : i ∈ g.positions := mem_positions.mpr ⟨s, (hIndexed.index s i).mp hFind⟩
    have hLength : (g.positions.erase i).length + 1 = g.methodCount := by
      rw [List.length_erase_of_mem hMem, Nat.sub_add_cancel (List.length_pos_of_mem hMem),
        positions, List.length_range, methodCount]
    constructor
    · intro last n hTurns
      calc n ≤ (g.positions.erase i).length + 1 := hTurns.turns_le
        _ = g.methodCount := hLength
    · exact Reach.within_turns next bound (g.positions.erase i) [(i, 0)]

/-- Three methods that call each other in turn. The first calls itself,
too. -/
def callRing (s t u : MethodSignature) : CallGraph :=
  empty.addAll [plainCall s s ⟨0⟩, plainCall s t ⟨3⟩, plainCall t u ⟨0⟩, plainCall u s ⟨0⟩]

theorem invokes_addAll {l : List Call} {caller target : MethodSignature} :
    (empty.addAll l).Invokes caller target ↔
      (caller, target) ∈ l.map fun c => (c.callerSignature, c.targetSignature) := by
  rw [Invokes, calls_addAll, List.mem_map]
  simp only [Prod.mk.injEq]
  rfl

/-- Two calls lead from the first method to the last, and no single one. -/
theorem callRing_walks :
    let a := MethodSignature.of "t/A" "f" "()V"
    let b := MethodSignature.of "t/B" "f" "()V"
    let c := MethodSignature.of "t/C" "f" "()V"
    Built (callRing a b c) ∧ c ∈ (callRing a b c).calleesOf a (some 2) ∧
      c ∉ (callRing a b c).calleesOf a (some 1) ∧ a ∈ (callRing a b c).callersOf c (some 2) ∧
      a ∉ (callRing a b c).calleesOf a none := by
  intro a b c
  have hBuilt : Built (callRing a b c) := Built.empty.addAll _
  have hFirst : (callRing a b c).Invokes a b := invokes_addAll.mpr (by simp)
  have hSecond : (callRing a b c).Invokes b c := invokes_addAll.mpr (by simp)
  have hReached : c ∈ (callRing a b c).calleesOf a (some 2) :=
    (walks_follow_calls hBuilt a c (some 2)).1.mpr
      ⟨by decide, 2, by decide, by simp, .succ (.succ (.zero a) hFirst) hSecond⟩
  refine ⟨hBuilt, hReached, ?_, (walks_follow_calls hBuilt c a (some 2)).2.1.mpr hReached, ?_⟩
  · intro hMem
    obtain ⟨-, n, hPos, hBound, hSteps⟩ := (walks_follow_calls hBuilt a c (some 1)).1.mp hMem
    have hOne := hBound 1 rfl
    obtain rfl : n = 1 := by omega
    have hDirect := invokes_addAll.mp (Reach.steps_one_iff.mp hSteps)
    revert hDirect
    decide
  · intro hMem
    exact ((walks_follow_calls hBuilt a a none).1.mp hMem).1 rfl

end JvmCalls.CallGraph
