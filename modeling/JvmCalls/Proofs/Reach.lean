import JvmCalls.Reach
import Mathlib.Data.List.Forall2
import Mathlib.Data.List.Perm.Subperm
import Mathlib.Logic.Relation

/-! A depth-first walk enters exactly the vertices that can be reached
from where it starts without leaving the vertices it may enter, and each of them
once. Cycles and repeated vertices do no harm. Where vertices are positions
of something, the walk enters those to which a relation between the things
leads. A walk without choices is one of these. It goes on until a vertex
would come again, and such walks on two graphs go side by side where the
graphs do. -/
namespace JvmCalls.Reach

variable {α : Type} {next : α → List α} {allowed todo : List α}

/-- A vertex is reached through allowed vertices, from one of those that are
still to do. The start itself must be allowed too. -/
inductive Reached (next : α → List α) (allowed todo : List α) : α → Prop where
  | start {x : α} : x ∈ todo → x ∈ allowed → Reached next allowed todo x
  | step {x y : α} : Reached next allowed todo x → y ∈ next x → y ∈ allowed →
      Reached next allowed todo y

theorem not_reached_nil {y : α} : ¬ Reached next allowed [] y := by
  intro hReached
  induction hReached with
  | start hStart _ => cases hStart
  | step _ _ _ ih => exact ih

/-- Starting at a vertex that may not be entered adds nothing. This is the
case in which the walk drops a vertex that was entered before. -/
theorem reached_cons_of_not_mem {x y : α} (hx : x ∉ allowed) :
    Reached next allowed (x :: todo) y ↔ Reached next allowed todo y := by
  constructor
  · intro hReached
    induction hReached with
    | start hStart hMem =>
        rcases List.mem_cons.mp hStart with hEqual | hRest
        · exact False.elim (hx (hEqual ▸ hMem))
        · exact .start hRest hMem
    | step _ hNext hMem ih => exact .step ih hNext hMem
  · intro hReached
    induction hReached with
    | start hRest hMem => exact .start (List.mem_cons_of_mem x hRest) hMem
    | step _ hNext hMem ih => exact .step ih hNext hMem

/-- Exactly `n` steps of a relation lead from one vertex to another. Other
than reachability alone, it can be compared with a bound. -/
inductive Steps (R : α → α → Prop) : α → α → Nat → Prop where
  | zero (x : α) : Steps R x x 0
  | succ {x y z : α} {n : Nat} (prior : Steps R x y n) (last : R y z) : Steps R x z (n + 1)

section Steps

variable {R : α → α → Prop} {x y z : α} {n : Nat}

/-- A step in front of others. The definition adds steps at the end only, as
that is where a search goes on. -/
theorem Steps.cons (first : R x y) (rest : Steps R y z n) : Steps R x z (n + 1) := by
  induction rest with
  | zero => exact .succ (.zero x) first
  | succ prior last ih => exact .succ ih last

theorem steps_one_iff : Steps R x y 1 ↔ R x y := by
  constructor
  · intro hSteps
    cases hSteps with
    | succ prior last =>
        cases prior
        exact last
  · exact .succ (.zero x)

/-- The same steps lead back against the relation. So a search may follow
links in either direction. -/
theorem Steps.swap (h : Steps R x y n) : Steps (Function.swap R) y x n := by
  induction h with
  | zero => exact .zero _
  | succ prior last ih => exact .cons last ih

theorem steps_swap_iff : Steps (Function.swap R) x y n ↔ Steps R y x n :=
  ⟨Steps.swap, Steps.swap⟩

/-- At least one step leads to another vertex. -/
theorem Steps.pos (h : Steps R x y n) (hOther : y ≠ x) : 1 ≤ n := by
  cases h with
  | zero => exact False.elim (hOther rfl)
  | succ prior last => exact Nat.succ_pos _

/-- The last of the steps to another vertex. -/
theorem Steps.exists_last (h : Steps R x y n) (hOther : y ≠ x) : ∃ z, R z y := by
  cases h with
  | zero => exact False.elim (hOther rfl)
  | succ prior last => exact ⟨_, last⟩

theorem Steps.exists_first (h : Steps R x y n) (hOther : y ≠ x) : ∃ z, R x z :=
  h.swap.exists_last hOther.symm

/-- Without a bound on the number of steps, this is reachability. Depths may
be forgotten where they are not asked for. -/
theorem reflTransGen_iff_exists_steps : Relation.ReflTransGen R x y ↔ ∃ n, Steps R x y n := by
  constructor
  · intro hPath
    induction hPath with
    | refl => exact ⟨0, .zero x⟩
    | tail _ hStep ih =>
        obtain ⟨n, hSteps⟩ := ih
        exact ⟨n + 1, .succ hSteps hStep⟩
  · rintro ⟨n, hSteps⟩
    induction hSteps with
    | zero => exact .refl
    | succ _ hStep ih => exact ih.tail hStep

end Steps

/-- A vertex is reached just if steps lead to it, if no step leaves the
allowed vertices. -/
theorem reached_iff_exists_steps (hClosed : ∀ x, ∀ y ∈ next x, y ∈ allowed) {y : α} :
    Reached next allowed todo y ↔
      ∃ x ∈ todo, x ∈ allowed ∧ ∃ n, Steps (fun a b => b ∈ next a) x y n := by
  constructor
  · intro hReached
    induction hReached with
    | start hStart hMem => exact ⟨_, hStart, hMem, 0, .zero _⟩
    | step _ hNext _ ih =>
        obtain ⟨x, hx, hMem, n, hSteps⟩ := ih
        exact ⟨x, hx, hMem, n + 1, .succ hSteps hNext⟩
  · rintro ⟨x, hx, hMem, n, hSteps⟩
    induction hSteps with
    | zero => exact .start hx hMem
    | succ _ last ih => exact .step ih last (hClosed _ _ last)

/-- Labels tell apart the vertices that may be entered. No other vertex has
one. -/
structure Labelling {β : Type} (label : α → Option β) (allowed : List α) : Prop where
  mem_iff : ∀ x, x ∈ allowed ↔ ∃ s, label x = some s
  distinct : ∀ {x y s}, label x = some s → label y = some s → x = y

/-- The steps of a walk are those that a relation makes between the labels
of vertices. -/
structure Follows {β : Type} (label : α → Option β) (next : α → List α) (R : β → β → Prop) :
    Prop where
  labels : ∀ x, ∀ y ∈ next x, ∃ s t, label x = some s ∧ label y = some t ∧ R s t
  steps : ∀ s t, R s t → ∃ x y, label x = some s ∧ label y = some t ∧ y ∈ next x

namespace Follows

variable {β : Type} {label : α → Option β} {R : β → β → Prop} {x y : α} {s t : β}

/-- No step leaves the vertices that may be entered, as its end has a
label. -/
theorem closed (h : Follows label next R) (hLabels : Labelling label allowed) :
    ∀ x, ∀ y ∈ next x, y ∈ allowed := by
  intro x y hNext
  obtain ⟨_, t, -, ht, -⟩ := h.labels x y hNext
  exact (hLabels.mem_iff y).mpr ⟨t, ht⟩

/-- As many steps lead from a vertex to another one as the relation makes
between their labels. Where the walk goes, the relation goes too. As labels
are distinct, the relation leads the walk to the vertex itself and not to
another one with its label. -/
theorem steps_iff (h : Follows label next R) (hLabels : Labelling label allowed)
    (hs : label x = some s) (ht : label y = some t) {n : Nat} :
    Steps (fun a b => b ∈ next a) x y n ↔ Steps R s t n := by
  constructor
  · intro hSteps
    induction hSteps generalizing t with
    | zero =>
        obtain rfl : s = t := Option.some.inj (hs.symm.trans ht)
        exact .zero s
    | succ prior last ih =>
        obtain ⟨middle, t', hMiddle, ht', hStep⟩ := h.labels _ _ last
        obtain rfl : t' = t := Option.some.inj (ht'.symm.trans ht)
        exact .succ (ih hMiddle) hStep
  · intro hSteps
    induction hSteps generalizing y with
    | zero =>
        obtain rfl := hLabels.distinct hs ht
        exact .zero x
    | succ prior last ih =>
        obtain ⟨z, y', hMiddle, ht', hNext⟩ := h.steps _ _ last
        obtain rfl := hLabels.distinct ht' ht
        exact .succ (ih hMiddle) hNext

/-- A vertex is reached just if the relation leads to its label from that of
a start. -/
theorem reached_iff (h : Follows label next R) (hLabels : Labelling label allowed)
    (ht : label y = some t) :
    Reached next allowed todo y ↔
      ∃ x ∈ todo, ∃ s, label x = some s ∧ Relation.ReflTransGen R s t := by
  rw [reached_iff_exists_steps (h.closed hLabels)]
  simp only [reflTransGen_iff_exists_steps]
  constructor
  · rintro ⟨x, hx, hMem, n, hSteps⟩
    obtain ⟨s, hs⟩ := (hLabels.mem_iff x).mp hMem
    exact ⟨x, hx, s, hs, n, (h.steps_iff hLabels hs ht).mp hSteps⟩
  · rintro ⟨x, hx, s, hs, n, hSteps⟩
    exact ⟨x, hx, (hLabels.mem_iff x).mpr ⟨s, hs⟩, n, (h.steps_iff hLabels hs ht).mpr hSteps⟩

end Follows

/-- Successive vertices from `x` on, none of them twice. It need not go as
far as it could. -/
inductive Walk (next : α → Option α) : α → List α → Prop where
  | single (x : α) : Walk next x [x]
  | step {x y : α} {path : List α} (hNext : next x = some y) (rest : Walk next y path)
      (hNew : x ∉ path) : Walk next x (x :: path)

section Walk

variable {next : α → Option α} {x y : α} {path : List α}

theorem Walk.mem_start (h : Walk next x path) : x ∈ path := by
  cases h with
  | single => exact List.mem_singleton.mpr rfl
  | step => exact List.mem_cons_self

/-- No vertex comes twice, so that a walk is no longer than there are
vertices. -/
theorem Walk.nodup (h : Walk next x path) : path.Nodup := by
  induction h with
  | single x => exact List.nodup_cons.mpr ⟨List.not_mem_nil, List.nodup_nil⟩
  | step hNext rest hNew ih => exact List.nodup_cons.mpr ⟨hNew, ih⟩

/-- A walk ends where the next vertex is outside of it, as each vertex but
the last is followed by its next one. -/
theorem Walk.getLast?_of_not_mem (h : Walk next x path) (hOutside : y ∉ path) {z : α}
    (hz : z ∈ path) (hNext : next z = some y) : path.getLast? = some z := by
  induction h with
  | single x =>
      obtain rfl := List.mem_singleton.mp hz
      rfl
  | @step x w path hStep rest hNew ih =>
      rw [List.mem_cons, not_or] at hOutside
      rcases List.mem_cons.mp hz with rfl | hLater
      · obtain rfl : w = y := Option.some.inj (hStep.symm.trans hNext)
        exact False.elim (hOutside.2 rest.mem_start)
      · rw [List.getLast?_cons, ih hOutside.2 hLater]
        rfl

/-- A walk ends where the next vertex is its start, as it enters no vertex
twice. -/
theorem Walk.getLast?_of_next (h : Walk next x path) {z : α} (hz : z ∈ path)
    (hNext : next z = some x) : path.getLast? = some z := by
  cases h with
  | single =>
      obtain rfl := List.mem_singleton.mp hz
      rfl
  | @step _ w path hStep rest hNew =>
      rcases List.mem_cons.mp hz with rfl | hLater
      · obtain rfl : w = z := Option.some.inj (hStep.symm.trans hNext)
        exact False.elim (hNew rest.mem_start)
      · rw [List.getLast?_cons, rest.getLast?_of_not_mem hNew hLater hNext]
        rfl

end Walk

variable [DecidableEq α]

/-- What a walk reaches after it entered a vertex, it reaches through that
vertex. So entering makes nothing up. -/
theorem Reached.of_entered {x y : α} {rest : List α} (hx : x ∈ allowed)
    (hReached : Reached next (allowed.erase x) (next x ++ rest) y) :
    Reached next allowed (x :: rest) y := by
  induction hReached with
  | start hStart hMem =>
      have hAllowed := List.mem_of_mem_erase hMem
      rcases List.mem_append.mp hStart with hNext | hRest
      · exact .step (.start List.mem_cons_self hx) hNext hAllowed
      · exact .start (List.mem_cons_of_mem x hRest) hAllowed
  | step _ hNext hMem ih => exact .step ih hNext (List.mem_of_mem_erase hMem)

/-- All that is reached, apart from the vertex that is entered, is reached
without going through it again. -/
theorem Reached.enter {x y : α} {rest : List α} (hReached : Reached next allowed (x :: rest) y)
    (hOther : y ≠ x) : Reached next (allowed.erase x) (next x ++ rest) y := by
  induction hReached with
  | start hStart hMem =>
      have hRest := (List.mem_cons.mp hStart).resolve_left hOther
      exact .start (List.mem_append_right _ hRest) ((List.mem_erase_of_ne hOther).mpr hMem)
  | @step z y _ hNext hMem ih =>
      have hLeft := (List.mem_erase_of_ne hOther).mpr hMem
      by_cases hSame : z = x
      · subst hSame
        exact .start (List.mem_append_left _ hNext) hLeft
      · exact .step (ih hSame) hNext hLeft

/-- The walk enters exactly what is reached. Its recursion enters the first
vertex, if it may, and each of its cases keeps what is reached from the
rest. -/
theorem mem_collect {y : α} : y ∈ collect next allowed todo ↔ Reached next allowed todo y := by
  induction allowed, todo using collect.induct next with
  | case1 allowed =>
      rw [collect]
      constructor
      · intro hMem
        cases hMem
      · intro hReached
        exact False.elim (not_reached_nil hReached)
  | case2 allowed x rest hx ih =>
      rw [collect, if_pos hx, List.mem_cons, ih]
      constructor
      · rintro (hEqual | hReached)
        · subst hEqual
          exact .start List.mem_cons_self hx
        · exact hReached.of_entered hx
      · intro hReached
        by_cases hEqual : y = x
        · exact .inl hEqual
        · exact .inr (hReached.enter hEqual)
  | case3 allowed x rest hx ih => rw [collect, if_neg hx, ih, reached_cons_of_not_mem hx]

/-- No vertex is entered twice, as an entered vertex may not be entered any
more. -/
theorem collect_subperm : List.Subperm (collect next allowed todo) allowed := by
  induction allowed, todo using collect.induct next with
  | case1 allowed =>
      rw [collect]
      exact List.nil_subperm
  | case2 allowed x rest hx ih =>
      rw [collect, if_pos hx]
      exact ((List.subperm_cons x).mpr ih).trans (List.perm_cons_erase hx).symm.subperm
  | case3 allowed x rest hx ih =>
      rw [collect, if_neg hx]
      exact ih

/-- A walk from several vertices enters those to whose labels the relation
leads from one of them. -/
theorem Follows.mem_collect {β : Type} {label : α → Option β} {R : β → β → Prop}
    (h : Follows label next R) (hLabels : Labelling label allowed) {y : α} {t : β}
    (ht : label y = some t) :
    y ∈ collect next allowed todo ↔
      ∃ x ∈ todo, ∃ s, label x = some s ∧ Relation.ReflTransGen R s t := by
  rw [Reach.mem_collect, h.reached_iff hLabels ht]

/-- A walk from one vertex enters those to whose labels the relation
leads. -/
theorem Follows.mem_collect_singleton {β : Type} {label : α → Option β} {R : β → β → Prop}
    (h : Follows label next R) (hLabels : Labelling label allowed) {x y : α} {s : β}
    (hs : label x = some s) :
    y ∈ collect next allowed [x] ↔ ∃ t, label y = some t ∧ Relation.ReflTransGen R s t := by
  constructor
  · intro hMem
    obtain ⟨t, ht⟩ := (hLabels.mem_iff y).mp (collect_subperm.subset hMem)
    obtain ⟨x', hx', s', hs', hPath⟩ := (h.mem_collect hLabels ht).mp hMem
    obtain rfl := List.mem_singleton.mp hx'
    obtain rfl : s' = s := Option.some.inj (hs'.symm.trans hs)
    exact ⟨t, ht, hPath⟩
  · rintro ⟨t, ht, hPath⟩
    exact (h.mem_collect hLabels ht).mpr ⟨x, List.mem_singleton_self x, s, hs, hPath⟩

/-- A walk without choices enters what a walk with one choice at each vertex
enters, so that what is known of the latter holds for it. -/
theorem visited_chain {next : α → Option α} {x : α} :
    (chain next allowed x).visited = collect (fun a => (next a).toList) allowed [x] := by
  induction allowed, x using chain.induct next with
  | case1 allowed x hx hNone =>
      rw [chain, if_pos hx, hNone, collect, if_pos hx, hNone, Option.toList_none, List.nil_append,
        collect]
  | case2 allowed x hx y hSome ih =>
      rw [chain, if_pos hx, hSome, collect, if_pos hx, hSome, Option.toList_some,
        List.singleton_append, ← ih]
  | case3 allowed x hx => rw [chain, if_neg hx, collect, if_neg hx, collect]

/-- Following the vertices without choice misses none before one of them
comes again. -/
theorem Walk.isPrefix_visited {next : α → Option α} {x : α} {path : List α}
    (h : Walk next x path) (hAllowed : ∀ a ∈ path, a ∈ allowed) :
    path <+: (chain next allowed x).visited := by
  induction h generalizing allowed with
  | single x =>
      rw [chain, if_pos (hAllowed x List.mem_cons_self)]
      split
      · exact List.prefix_rfl
      · exact List.cons_prefix_cons.mpr ⟨rfl, List.nil_prefix⟩
  | @step x y path hNext rest hNew ih =>
      have hRest : ∀ a ∈ path, a ∈ allowed.erase x := by
        intro a ha
        have hNe : a ≠ x := fun hSame => hNew (hSame ▸ ha)
        exact (List.mem_erase_of_ne hNe).mpr (hAllowed a (List.mem_cons_of_mem x ha))
      rw [chain, if_pos (hAllowed x List.mem_cons_self), hNext]
      exact List.cons_prefix_cons.mpr ⟨rfl, ih hRest⟩

/-- What it goes through from its start on is a walk, wherever it is broken
off. Together with the lemma before, these are all walks. -/
theorem walk_of_isPrefix_visited {next : α → Option α} {x : α} {path : List α}
    (hNodup : allowed.Nodup) (hPath : path ≠ [])
    (hPrefix : path <+: (chain next allowed x).visited) :
    Walk next x path ∧ ∀ a ∈ path, a ∈ allowed := by
  induction path generalizing allowed x with
  | nil => exact False.elim (hPath rfl)
  | cons first rest ih =>
      rw [chain] at hPrefix
      split at hPrefix
      · next hx =>
          have hOnly : Walk next x [x] ∧ ∀ a ∈ [x], a ∈ allowed :=
            ⟨.single x, fun a ha => List.mem_singleton.mp ha ▸ hx⟩
          split at hPrefix
          · obtain ⟨rfl, hRest⟩ := List.cons_prefix_cons.mp hPrefix
            exact List.prefix_nil.mp hRest ▸ hOnly
          · next y hNext =>
              obtain ⟨rfl, hRest⟩ := List.cons_prefix_cons.mp hPrefix
              by_cases hNil : rest = []
              · exact hNil ▸ hOnly
              · obtain ⟨hWalk, hIn⟩ := ih (hNodup.erase first) hNil hRest
                have hNew : first ∉ rest :=
                  fun hMem => (hNodup.mem_erase_iff.mp (hIn first hMem)).1 rfl
                refine ⟨.step hNext hWalk hNew, ?_⟩
                intro a ha
                rcases List.mem_cons.mp ha with rfl | hLater
                · exact hx
                · exact List.mem_of_mem_erase (hIn a hLater)
      · exact absurd (List.prefix_nil.mp hPrefix) (List.cons_ne_nil first rest)

/-- Walks without choices stay related where their steps are related, if
related vertices may be entered at the same time. -/
theorem chain_related {α β : Type} [DecidableEq α] [DecidableEq β] {next : α → Option α}
    {step : β → Option β} {R : α → β → Prop}
    (hUnique : ∀ a b c d, R a b → R c d → (a = c ↔ b = d))
    (hNext : ∀ a b, R a b → Option.Rel R (next a) (step b)) {x : α} {y : β} {left : List α}
    {right : List β} (hxy : R x y) (hLeft : left.Nodup) (hRight : right.Nodup)
    (hSame : ∀ a b, R a b → (a ∈ left ↔ b ∈ right)) :
    List.Forall₂ R (chain next left x).visited (chain step right y).visited ∧
      Option.Rel R (chain next left x).repeated (chain step right y).repeated := by
  induction left, x using chain.induct next generalizing y right with
  | case1 left x hx hNone =>
      have hy := (hSame x y hxy).mp hx
      have hStep := hNext x y hxy
      cases hSome : step y with
      | some w =>
          rw [hNone, hSome] at hStep
          cases hStep
      | none =>
          rw [chain, if_pos hx, hNone, chain, if_pos hy, hSome]
          exact ⟨.cons hxy .nil, .none⟩
  | case2 left x hx z hSome ih =>
      have hy := (hSame x y hxy).mp hx
      have hStep := hNext x y hxy
      cases hOther : step y with
      | none =>
          rw [hSome, hOther] at hStep
          cases hStep
      | some w =>
          rw [hSome, hOther] at hStep
          have hzw : R z w := by
            cases hStep with
            | some hRelated => exact hRelated
          have hRest : ∀ a b, R a b → (a ∈ left.erase x ↔ b ∈ right.erase y) := by
            intro a b hab
            rw [hLeft.mem_erase_iff, hRight.mem_erase_iff, hSame a b hab, ne_eq, ne_eq,
              hUnique a b x y hab hxy]
          obtain ⟨hVisited, hRepeated⟩ := ih hzw (hLeft.erase x) (hRight.erase y) hRest
          rw [chain, if_pos hx, hSome, chain, if_pos hy, hOther]
          exact ⟨.cons hxy hVisited, hRepeated⟩
  | case3 left x hx =>
      have hy : y ∉ right := fun hy => hx ((hSame x y hxy).mpr hy)
      rw [chain, if_neg hx, chain, if_neg hy]
      exact ⟨.nil, .some hxy⟩

end JvmCalls.Reach
