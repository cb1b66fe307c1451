import JvmCalls.Proofs.Reach

/-! A breadth-first walk enters each vertex by a shortest path. Its queue
holds vertices by ascending depth, and no two depths in it differ by more
than one. So a walk that ends at a bound misses nothing that is near enough,
and each vertex takes one turn of it at most, on cyclic graphs too. -/
namespace JvmCalls.Reach

variable {α : Type} {next : α → List α} {allowed : List α} {queue rest : List (α × Nat)}

/-- A vertex is reached at a depth, from the queue on and through allowed
vertices. A vertex may be reached at several depths, and a walk enters it at
the least of them. -/
inductive ReachedAt (next : α → List α) (allowed : List α) (queue : List (α × Nat)) :
    α → Nat → Prop where
  | start {x : α} {depth : Nat} : (x, depth) ∈ queue → ReachedAt next allowed queue x depth
  | step {x y : α} {depth : Nat} : ReachedAt next allowed queue x depth → y ∈ next x →
      y ∈ allowed → ReachedAt next allowed queue y (depth + 1)

/-- Depths do not fall below those in the queue. So the front of an ordered
queue has the least depth of all that is still reached. -/
theorem ReachedAt.le_depth {depth n : Nat} {y : α} (hLeast : ∀ a ∈ queue, depth ≤ a.2)
    (hReached : ReachedAt next allowed queue y n) : depth ≤ n := by
  induction hReached with
  | start hStart => exact hLeast _ hStart
  | step _ _ _ ih => omega

theorem not_reachedAt_nil {y : α} {n : Nat} : ¬ ReachedAt next allowed [] y n := by
  intro hReached
  induction hReached with
  | start hStart => cases hStart
  | step _ _ _ ih => exact ih

/-- What the rest of a queue leads to, the whole queue leads to at the same
depth. -/
theorem ReachedAt.of_tail {a : α × Nat} {y : α} {n : Nat}
    (hReached : ReachedAt next allowed rest y n) : ReachedAt next allowed (a :: rest) y n := by
  induction hReached with
  | start hStart => exact .start (List.mem_cons_of_mem a hStart)
  | step _ hNext hMem ih => exact .step ih hNext hMem

/-- Going on from a vertex leads to greater depths than its own. What is not
reached through the front is reached from the rest. -/
theorem ReachedAt.tail {x y : α} {depth n : Nat}
    (hReached : ReachedAt next allowed ((x, depth) :: rest) y n) :
    (y, n) = (x, depth) ∨ depth < n ∨ ReachedAt next allowed rest y n := by
  induction hReached with
  | start hStart =>
      rcases List.mem_cons.mp hStart with hFirst | hRest
      · exact .inl hFirst
      · exact .inr (.inr (.start hRest))
  | step _ hNext hMem ih =>
      rcases ih with hFirst | hDeeper | hRest
      · have hDepth := (Prod.mk.inj hFirst).2
        exact .inr (.inl (by omega))
      · exact .inr (.inl (by omega))
      · exact .inr (.inr (.step hRest hNext hMem))

/-- The order of the queue, and that what is in it was entered. Depths
ascend and span at most two values, which is what makes the walk
breadth-first. -/
structure Queued (unvisited : List α) (queue : List (α × Nat)) : Prop where
  ascending : queue.Pairwise fun a b => a.2 ≤ b.2
  close : ∀ a ∈ queue, ∀ b ∈ queue, b.2 ≤ a.2 + 1
  entered : ∀ a ∈ queue, a.1 ∉ unvisited

variable {unvisited : List α} {x : α} {depth : Nat}

/-- A walk starts with one vertex in its queue, which may not be entered
again. -/
theorem Queued.single (hx : x ∉ unvisited) : Queued unvisited [(x, depth)] where
  ascending := List.pairwise_singleton _ _
  close a ha b hb := by
    rw [List.mem_singleton] at ha hb
    rw [ha, hb]
    exact Nat.le_succ _
  entered a ha := by
    rw [List.mem_singleton.mp ha]
    exact hx

/-- Taking the first vertex off disturbs nothing. -/
theorem Queued.tail (h : Queued unvisited ((x, depth) :: rest)) : Queued unvisited rest where
  ascending := (List.pairwise_cons.mp h.ascending).2
  close a ha b hb := h.close a (List.mem_cons_of_mem _ ha) b (List.mem_cons_of_mem _ hb)
  entered a ha := h.entered a (List.mem_cons_of_mem _ ha)

/-- No vertex in the queue is nearer than the first. -/
theorem Queued.first_le (h : Queued unvisited ((x, depth) :: rest)) :
    ∀ a ∈ (x, depth) :: rest, depth ≤ a.2 := by
  intro a ha
  rcases List.mem_cons.mp ha with rfl | hRest
  · exact Nat.le_refl _
  · exact (List.pairwise_cons.mp h.ascending).1 a hRest

/-- A vertex that is reached from the start at a depth is that many steps
away. -/
theorem ReachedAt.steps {y : α} {n : Nat} (hReached : ReachedAt next allowed [(x, 0)] y n) :
    Steps (fun a b => b ∈ next a) x y n := by
  induction hReached with
  | start hStart =>
      obtain ⟨rfl, rfl⟩ := Prod.mk.inj (List.mem_singleton.mp hStart)
      exact .zero _
  | step _ hNext _ ih => exact .succ ih hNext

variable [DecidableEq α]

/-- What some steps lead to is reached at no greater depth, even if the
start may not be entered again. A path that comes back to the start is cut
there. -/
theorem Steps.reachedAt {y : α} {n : Nat} (hClosed : ∀ a, ∀ b ∈ next a, b ∈ allowed)
    (hSteps : Steps (fun a b => b ∈ next a) x y n) :
    y = x ∨ ∃ m ≤ n, ReachedAt next (allowed.erase x) [(x, 0)] y m := by
  induction hSteps with
  | zero => exact .inl rfl
  | @succ y z n prior last ih =>
      by_cases hBack : z = x
      · exact .inl hBack
      · have hz := (List.mem_erase_of_ne hBack).mpr (hClosed y z last)
        rcases ih with rfl | ⟨m, hLe, hReached⟩
        · exact .inr ⟨1, by omega, .step (.start List.mem_cons_self) last hz⟩
        · exact .inr ⟨m + 1, by omega, .step hReached last hz⟩

/-- The vertices that a turn enters are those next to its vertex that no
turn entered before. -/
theorem mem_fresh {vertices : List α} {y : α} :
    y ∈ fresh unvisited vertices ↔ y ∈ unvisited ∧ y ∈ vertices := by
  rw [fresh, List.mem_filter, List.contains_iff_mem]

/-- What is left after a turn has not been entered by it. -/
theorem mem_remaining {vertices : List α} {y : α} :
    y ∈ remaining unvisited vertices ↔ y ∈ unvisited ∧ y ∉ vertices := by
  simp [remaining]

/-- The queue after the vertices next to its first were entered: what was in
it already, and the new ones one step deeper. -/
theorem mem_queue_iff {vertices : List α} {a : α × Nat} :
    a ∈ rest ++ (fresh unvisited vertices).map (fun y => (y, depth + 1)) ↔
      a ∈ rest ∨ a.1 ∈ fresh unvisited vertices ∧ a.2 = depth + 1 := by
  rw [List.mem_append, List.mem_map]
  refine or_congr_right ?_
  constructor
  · rintro ⟨y, hy, rfl⟩
    exact ⟨hy, rfl⟩
  · rintro ⟨hFresh, hDepth⟩
    exact ⟨a.1, hFresh, by rw [← hDepth]⟩

/-- A turn preserves the order. New vertices come last and have the greatest
depth, which is one more than the least. -/
theorem Queued.turn (h : Queued unvisited ((x, depth) :: rest)) (vertices : List α) :
    Queued (remaining unvisited vertices)
      (rest ++ (fresh unvisited vertices).map fun y => (y, depth + 1)) where
  ascending := by
    rw [List.pairwise_append]
    refine ⟨h.tail.ascending, ?_, ?_⟩
    · rw [List.pairwise_map]
      exact List.pairwise_of_forall fun _ _ => Nat.le_refl _
    · intro a ha b hb
      obtain ⟨y, -, rfl⟩ := List.mem_map.mp hb
      exact h.close (x, depth) List.mem_cons_self a (List.mem_cons_of_mem _ ha)
  close a ha b hb := by
    have hBounds (c : α × Nat) (hc : c ∈ rest ++ (fresh unvisited vertices).map
        fun y => (y, depth + 1)) : depth ≤ c.2 ∧ c.2 ≤ depth + 1 := by
      rcases mem_queue_iff.mp hc with hOld | ⟨-, hDepth⟩
      · have hMem := List.mem_cons_of_mem (x, depth) hOld
        exact ⟨h.first_le c hMem, h.close (x, depth) List.mem_cons_self c hMem⟩
      · omega
    have hLeast := (hBounds a ha).1
    have hGreatest := (hBounds b hb).2
    omega
  entered a ha hLeft := by
    obtain ⟨hUnvisited, hOther⟩ := mem_remaining.mp hLeft
    rcases mem_queue_iff.mp ha with hOld | ⟨hFresh, -⟩
    · exact h.entered a (List.mem_cons_of_mem _ hOld) hUnvisited
    · exact hOther (mem_fresh.mp hFresh).2

/-- What is reached after a turn was reached at that depth before it, so
that turns make nothing up. -/
theorem ReachedAt.of_turn {y : α} {n : Nat}
    (hReached : ReachedAt next (remaining unvisited (next x))
      (rest ++ (fresh unvisited (next x)).map fun y => (y, depth + 1)) y n) :
    ReachedAt next unvisited ((x, depth) :: rest) y n := by
  induction hReached with
  | @start z d hStart =>
      rcases mem_queue_iff.mp hStart with hOld | ⟨hFresh, hDepth⟩
      · exact .start (List.mem_cons_of_mem _ hOld)
      · obtain ⟨hUnvisited, hNext⟩ := mem_fresh.mp hFresh
        obtain rfl : d = depth + 1 := hDepth
        exact .step (.start List.mem_cons_self) hNext hUnvisited
  | step _ hNext hMem ih => exact .step ih hNext (mem_remaining.mp hMem).1

/-- What is reached before a turn is reached after it at no greater depth,
apart from the vertex whose turn it was. A path that goes through a vertex
next to that one is no longer when it starts there, as the queue is
ascending. -/
theorem ReachedAt.turn (h : Queued unvisited ((x, depth) :: rest)) {y : α} {n : Nat}
    (hReached : ReachedAt next unvisited ((x, depth) :: rest) y n) :
    (y, n) = (x, depth) ∨ ∃ m ≤ n, ReachedAt next (remaining unvisited (next x))
      (rest ++ (fresh unvisited (next x)).map fun y => (y, depth + 1)) y m := by
  induction hReached with
  | start hStart =>
      rcases List.mem_cons.mp hStart with hFirst | hRest
      · exact .inl hFirst
      · exact .inr ⟨_, Nat.le_refl _, .start (mem_queue_iff.mpr (.inl hRest))⟩
  | @step z y d hPrior hNext hMem ih =>
      right
      by_cases hNear : y ∈ next x
      · have hFresh := mem_fresh.mpr ⟨hMem, hNear⟩
        have hDepth := hPrior.le_depth h.first_le
        exact ⟨depth + 1, by omega, .start (mem_queue_iff.mpr (.inr ⟨hFresh, rfl⟩))⟩
      · rcases ih with hFirst | ⟨m, hLe, hReached⟩
        · rw [(Prod.mk.inj hFirst).1] at hNext
          exact False.elim (hNear hNext)
        · exact ⟨m + 1, by omega, .step hReached hNext (mem_remaining.mpr ⟨hMem, hNear⟩)⟩

/-- A vertex is at the bound where the bound is not above its depth. -/
theorem any_le_iff {bound : Option Nat} {n : Nat} :
    bound.any (· ≤ n) = true ↔ ∃ k ∈ bound, k ≤ n := by
  simp [Option.any_eq_true]

/-- A walk enters exactly the vertices that are reached at a depth within
the bound. The induction is on the turns, and the order of the queue is the
invariant. -/
theorem mem_within {bound : Option Nat} (h : Queued unvisited queue) {y : α} :
    y ∈ within next bound unvisited queue ↔
      y ∈ unvisited ∧ ∃ n, (∀ k ∈ bound, n ≤ k) ∧ ReachedAt next unvisited queue y n := by
  induction unvisited, queue using within.induct next bound with
  | case1 unvisited =>
      rw [within]
      refine iff_of_false List.not_mem_nil ?_
      rintro ⟨-, n, -, hReached⟩
      exact not_reachedAt_nil hReached
  | case2 unvisited x depth rest hPast ih =>
      rw [within, if_pos hPast, ih h.tail]
      constructor
      · rintro ⟨hy, n, hBound, hReached⟩
        exact ⟨hy, n, hBound, hReached.of_tail⟩
      · rintro ⟨hy, n, hBound, hReached⟩
        obtain ⟨k, hk, hLe⟩ := any_le_iff.mp hPast
        have hNear := hBound k hk
        rcases hReached.tail with hFirst | hDeeper | hRest
        · rw [(Prod.mk.inj hFirst).1] at hy
          exact False.elim (h.entered _ List.mem_cons_self hy)
        · omega
        · exact ⟨hy, n, hBound, hRest⟩
  | case3 unvisited x depth rest hBefore ih =>
      have hNear (k : Nat) (hk : k ∈ bound) : depth + 1 ≤ k :=
        Nat.lt_of_not_le fun hLe => hBefore (any_le_iff.mpr ⟨k, hk, hLe⟩)
      rw [within, if_neg hBefore, List.mem_append, ih (h.turn (next x)), mem_fresh, mem_remaining]
      constructor
      · rintro (⟨hy, hNext⟩ | ⟨⟨hy, -⟩, n, hBound, hReached⟩)
        · exact ⟨hy, depth + 1, hNear, .step (.start List.mem_cons_self) hNext hy⟩
        · exact ⟨hy, n, hBound, hReached.of_turn⟩
      · rintro ⟨hy, n, hBound, hReached⟩
        by_cases hNext : y ∈ next x
        · exact .inl ⟨hy, hNext⟩
        · rcases hReached.turn h with hFirst | ⟨m, hLe, hReached⟩
          · rw [(Prod.mk.inj hFirst).1] at hy
            exact False.elim (h.entered _ List.mem_cons_self hy)
          · exact .inr ⟨⟨hy, hNext⟩, m, fun k hk => Nat.le_trans hLe (hBound k hk), hReached⟩

/-- A walk that starts at a vertex and may enter all others enters those to
which steps lead, as many as the bound allows. A path that comes back to the
start can be cut there. -/
theorem mem_within_start {bound : Option Nat} {x y : α} (hNodup : allowed.Nodup)
    (hClosed : ∀ a, ∀ b ∈ next a, b ∈ allowed) :
    y ∈ within next bound (allowed.erase x) [(x, 0)] ↔
      y ≠ x ∧ ∃ n, (∀ k ∈ bound, n ≤ k) ∧ Steps (fun a b => b ∈ next a) x y n := by
  have hStart : Queued (allowed.erase x) [(x, 0)] :=
    .single fun hx => (hNodup.mem_erase_iff.mp hx).1 rfl
  rw [mem_within hStart]
  constructor
  · rintro ⟨hy, n, hBound, hReached⟩
    exact ⟨(hNodup.mem_erase_iff.mp hy).1, n, hBound, hReached.steps⟩
  · rintro ⟨hOther, n, hBound, hSteps⟩
    obtain ⟨m, hLe, hReached⟩ := (hSteps.reachedAt hClosed).resolve_left hOther
    obtain ⟨z, hLast⟩ := hSteps.exists_last hOther
    have hy := hClosed z y hLast
    exact ⟨hNodup.mem_erase_iff.mpr ⟨hOther, hy⟩, m,
      fun k hk => Nat.le_trans hLe (hBound k hk), hReached⟩

/-- One turn of a walk, as a step between what is to be entered together
with the queue. -/
inductive Turn (next : α → List α) (bound : Option Nat) :
    List α × List (α × Nat) → List α × List (α × Nat) → Prop where
  | stop {unvisited : List α} {x : α} {depth : Nat} {rest : List (α × Nat)}
      (hPast : bound.any (· ≤ depth) = true) :
      Turn next bound (unvisited, (x, depth) :: rest) (unvisited, rest)
  | leave {unvisited : List α} {x : α} {depth : Nat} {rest : List (α × Nat)}
      (hBefore : ¬ bound.any (· ≤ depth) = true) :
      Turn next bound (unvisited, (x, depth) :: rest) (remaining unvisited (next x),
        rest ++ (fresh unvisited (next x)).map fun y => (y, depth + 1))

/-- A turn takes one vertex away for good, as vertices only move to the
queue. -/
theorem Turn.length {bound : Option Nat} {a b : List α × List (α × Nat)}
    (h : Turn next bound a b) : b.1.length + b.2.length + 1 = a.1.length + a.2.length := by
  cases h with
  | stop _ =>
      simp only [List.length_cons]
      omega
  | @leave unvisited x depth rest _ =>
      have hSplit := length_fresh_add_remaining unvisited (next x)
      simp only [List.length_append, List.length_map, List.length_cons]
      omega

/-- A walk has no more turns than there are vertices, as each turn takes one
away. -/
theorem Steps.turns_le {bound : Option Nat} {a b : List α × List (α × Nat)} {n : Nat}
    (h : Steps (Turn next bound) a b n) : n ≤ a.1.length + a.2.length := by
  have hLength : b.1.length + b.2.length + n = a.1.length + a.2.length := by
    induction h with
    | zero => rfl
    | succ prior last ih =>
        have hLast := last.length
        omega
  omega

/-- The turns of a walk go on until the queue is empty. Each vertex that is
entered has one. -/
theorem within_turns (next : α → List α) (bound : Option Nat) (unvisited : List α)
    (queue : List (α × Nat)) :
    ∃ left, Steps (Turn next bound) (unvisited, queue) (left, [])
      (queue.length + (within next bound unvisited queue).length) := by
  induction unvisited, queue using within.induct next bound with
  | case1 unvisited =>
      rw [within]
      exact ⟨unvisited, .zero _⟩
  | case2 unvisited x depth rest hPast ih =>
      obtain ⟨left, hTurns⟩ := ih
      rw [within, if_pos hPast, List.length_cons, Nat.add_right_comm]
      exact ⟨left, .cons (.stop hPast) hTurns⟩
  | case3 unvisited x depth rest hBefore ih =>
      obtain ⟨left, hTurns⟩ := ih
      rw [List.length_append, List.length_map, Nat.add_assoc] at hTurns
      rw [within, if_neg hBefore, List.length_cons, List.length_append, Nat.add_right_comm]
      exact ⟨left, .cons (.leave hBefore) hTurns⟩

end JvmCalls.Reach
