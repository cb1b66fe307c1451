import JvmCalls.Proofs.CallGraph.Filtering

/-! Merging call graphs. The calls of one graph are added to the other, and
their methods come with them. A method without calls does not come along.
Adding calls never makes such a method, but a filter keeps matching methods
whose calls it drops. -/
namespace JvmCalls

/-- The method is at one of the ends of the call. -/
def Call.Names (c : Call) (s : MethodSignature) : Prop :=
  c.callerSignature = s ∨ c.targetSignature = s

namespace CallGraph

/-- The method calls or is called. In a graph that only has calls added,
these are all methods. -/
def HasCall (g : CallGraph) (s : MethodSignature) : Prop := ∃ c ∈ g.calls, c.Names s

/-- The graph is built, and every filter on the way matches only methods
with a property. What was merged into the graph may have been filtered in
any way. -/
inductive BuiltMatching (P : MethodSignature → Prop) : CallGraph → Prop where
  | empty : BuiltMatching P empty
  | add {g : CallGraph} (prior : BuiltMatching P g) (c : Call) : BuiltMatching P (g.add c)
  | merge {g other : CallGraph} (prior : BuiltMatching P g) (added : Built other) :
      BuiltMatching P (g.merge other)
  | filter {g : CallGraph} (prior : Built g) {p : MethodSignature → Bool}
      (matching : ∀ s, p s = true → P s) : BuiltMatching P (g.filter p)

variable {g other : CallGraph} {s : MethodSignature}

/-- Looking a method up adds it, and takes no other method away. -/
theorem contains_intern {t : MethodSignature} :
    (g.intern t).2.contains s = true ↔ g.contains s = true ∨ t = s := by
  unfold intern
  split
  · next hFind =>
      have hKnown (hSame : t = s) : g.contains s = true := by
        rw [← hSame, contains, hFind, Option.isSome_some]
      exact (or_iff_left_of_imp hKnown).symm
  · next hFind =>
      show (g.index.insert t g.methods.size)[s]?.isSome = true ↔ (g.index[s]?).isSome = true ∨ _
      rw [Std.HashMap.getElem?_insert]
      by_cases hSame : t = s
      · simp [hSame]
      · simp [hSame]

theorem not_contains_empty : ¬ empty.contains s = true := by
  simp [empty, contains, find?]

/-- Adding a call adds its caller and its target, and no other method. -/
theorem contains_add {c : Call} :
    (g.add c).contains s = true ↔ g.contains s = true ∨ c.Names s := by
  show ((g.intern c.callerSignature).2.intern c.targetSignature).2.contains s = true ↔ _
  rw [contains_intern, contains_intern, or_assoc, Call.Names]

/-- The methods of added calls are added, and no others. It is all that a
merge does to the set of methods. -/
theorem contains_addAll {l : List Call} :
    (g.addAll l).contains s = true ↔ g.contains s = true ∨ ∃ c ∈ l, c.Names s := by
  induction l generalizing g with
  | nil => simp [addAll]
  | cons c rest ih =>
      show ((g.add c).addAll rest).contains s = true ↔ _
      rw [ih, contains_add, or_assoc]
      simp only [List.mem_cons, exists_eq_or_imp]

/-- Merging goes over the calls of the other graph, so that it brings the
methods that are named there. -/
theorem contains_merge :
    (g.merge other).contains s = true ↔ g.contains s = true ∨ other.HasCall s :=
  contains_addAll

/-- A call that is added counts for both of its ends. -/
theorem hasCall_add {c : Call} : (g.add c).HasCall s ↔ g.HasCall s ∨ c.Names s := by
  simp [HasCall, or_and_right, exists_or]

theorem hasCall_merge : (g.merge other).HasCall s ↔ g.HasCall s ∨ other.HasCall s := by
  simp [HasCall, or_and_right, exists_or]

/-- The ends of all calls are methods of the graph. -/
theorem Indexed.contains_of_hasCall (h : g.Indexed) (hCall : g.HasCall s) :
    g.contains s = true := by
  obtain ⟨c, hc, hEnd⟩ := hCall
  obtain ⟨e, he, rfl⟩ := mem_calls.mp hc
  rw [h.contains_iff]
  cases hEnd with
  | inl hCaller => exact hCaller ▸ Array.mem_of_getElem? (h.source e he)
  | inr hTarget => exact hTarget ▸ Array.mem_of_getElem? (h.target e he)

/-- A method that stays without a match has the first call of a path to
one. -/
theorem Indexed.hasCall_filter (h : g.Indexed) {p : MethodSignature → Bool}
    (hKept : (g.filter p).contains s = true) (hOther : ¬ p s = true) :
    (g.filter p).HasCall s := by
  obtain ⟨t, -, hMatch, hPath⟩ := h.leadsTo_filter (h.contains_filter.mp hKept)
  cases hPath.cases_head with
  | inl hSame => exact absurd (hSame ▸ hMatch) hOther
  | inr hFirst =>
      obtain ⟨_, ⟨c, hc, hCaller, -⟩, -⟩ := hFirst
      exact ⟨c, hc, .inl hCaller⟩

/-- Without calls are only methods that a filter matched. Each way to make a
graph is a case, and merging adds only methods that have calls. -/
theorem BuiltMatching.hasCall {P : MethodSignature → Prop} (h : g.BuiltMatching P)
    (hMem : g.contains s = true) (hOther : ¬ P s) : g.HasCall s := by
  induction h with
  | empty => exact absurd hMem not_contains_empty
  | add prior c ih => exact hasCall_add.mpr ((contains_add.mp hMem).imp_left ih)
  | merge prior added ih => exact hasCall_merge.mpr ((contains_merge.mp hMem).imp_left ih)
  | filter prior matching => exact prior.indexed.hasCall_filter hMem (mt (matching s) hOther)

/-- Merging keeps the methods of a graph and adds those that call or are
called in the other one, so it makes no method up. It is the union of both
exactly if the methods of the other graph that have no calls are there
before. That is so if the methods that its filters matched are there, and
always if it was made without filters. -/
theorem merge_adds_called_methods (g : CallGraph) (hOther : Built other) :
    (∀ s, (g.merge other).contains s = true ↔ g.contains s = true ∨ other.HasCall s) ∧
    (∀ s, (g.merge other).contains s = true → g.contains s = true ∨ other.contains s = true) ∧
    ((∀ s, (g.merge other).contains s = true ↔ g.contains s = true ∨ other.contains s = true) ↔
      ∀ s, other.contains s = true → ¬ other.HasCall s → g.contains s = true) ∧
    (∀ P, other.BuiltMatching P → (∀ s, P s → g.contains s = true) →
      ∀ s, (g.merge other).contains s = true ↔
        g.contains s = true ∨ other.contains s = true) := by
  have hKnown (s : MethodSignature) : other.HasCall s → other.contains s = true :=
    hOther.indexed.contains_of_hasCall
  have hUnion (hLone : ∀ s, other.contains s = true → ¬ other.HasCall s → g.contains s = true)
      (s : MethodSignature) : (g.merge other).contains s = true ↔
        g.contains s = true ∨ other.contains s = true := by
    rw [contains_merge]
    constructor
    · exact Or.imp_right (hKnown s)
    · intro hEither
      by_cases hCall : other.HasCall s
      · exact .inr hCall
      · exact .inl (hEither.elim id fun hMem => hLone s hMem hCall)
  refine ⟨fun s => contains_merge, ?_, ⟨?_, hUnion⟩, ?_⟩
  · intro s hMerged
    exact (contains_merge.mp hMerged).imp_right (hKnown s)
  · intro hAll s hMem hCall
    exact (contains_merge.mp ((hAll s).mpr (.inr hMem))).resolve_right hCall
  · intro P hMatching hThere
    apply hUnion
    intro s hMem hCall
    exact hThere s (Classical.by_contradiction fun hs => hCall (hMatching.hasCall hMem hs))

/-- One call, filtered for its caller. -/
def loneCaller (s t : MethodSignature) : CallGraph :=
  (empty.addAll [plainCall s t ⟨0⟩]).filter (· == s)

theorem built_loneCaller (s t : MethodSignature) : Built (loneCaller s t) :=
  (Built.empty.addAll _).filter _

theorem contains_loneCaller (s t : MethodSignature) : (loneCaller s t).contains s = true := by
  have hIndexed := indexed_empty.addAll [plainCall s t ⟨0⟩]
  have hInvokes : (empty.addAll [plainCall s t ⟨0⟩]).Invokes s t := invokes_addAll.mpr (by simp)
  exact hIndexed.contains_filter.mpr
    ⟨s, hIndexed.mem_of_invokes hInvokes, beq_self_eq_true s, .refl⟩

theorem not_contains_loneCaller {s t : MethodSignature} (hOther : t ≠ s) :
    ¬ (loneCaller s t).contains t = true := by
  rw [loneCaller, (indexed_empty.addAll _).contains_filter]
  rintro ⟨u, -, hMatch, hPath⟩
  cases hPath.cases_head with
  | inl hSame => exact hOther (hSame.trans (beq_iff_eq.mp hMatch))
  | inr hFirst =>
      obtain ⟨v, hInvokes, -⟩ := hFirst
      have hPair := invokes_addAll.mp hInvokes
      simp [hOther] at hPair

/-- The call goes with its target. -/
theorem calls_loneCaller {s t : MethodSignature} (hOther : t ≠ s) :
    (loneCaller s t).calls = [] := by
  have hTarget := not_contains_loneCaller hOther
  rw [loneCaller, CallGraph.filter] at hTarget ⊢
  rw [(indexed_empty.addAll _).calls_restrict_eq, List.filter_eq_nil_iff, calls_addAll]
  intro c hc
  obtain rfl : c = plainCall s t ⟨0⟩ := List.mem_singleton.mp hc
  rw [targetSignature_plainCall, Bool.and_eq_true]
  exact fun hBoth => hTarget hBoth.2

/-- The caller is not lost if it is called in the graph to which the other
one is merged. -/
theorem loneCaller_merged :
    let a := MethodSignature.of "t/A" "f" "()V"
    let b := MethodSignature.of "t/B" "f" "()V"
    let g := empty.addAll [plainCall b a ⟨0⟩]
    Built (loneCaller a b) ∧ (loneCaller a b).BuiltMatching (· = a) ∧
      (loneCaller a b).contains a = true ∧ (loneCaller a b).calls = [] ∧
      ∀ s, (g.merge (loneCaller a b)).contains s = true ↔
        g.contains s = true ∨ (loneCaller a b).contains s = true := by
  intro a b g
  have hBuilt := built_loneCaller a b
  have hMatching : (loneCaller a b).BuiltMatching (· = a) :=
    .filter (Built.empty.addAll _) fun s => beq_iff_eq.mp
  have hThere (s : MethodSignature) (hSame : s = a) : g.contains s = true :=
    contains_addAll.mpr (.inr ⟨_, List.mem_singleton_self _, .inr hSame.symm⟩)
  exact ⟨hBuilt, hMatching, contains_loneCaller a b, calls_loneCaller (by decide),
    (merge_adds_called_methods g hBuilt).2.2.2 _ hMatching hThere⟩

/-- Merged into a graph without methods, it is. -/
theorem loneCaller_lost :
    let a := MethodSignature.of "t/A" "f" "()V"
    let b := MethodSignature.of "t/B" "f" "()V"
    Built (loneCaller a b) ∧ (loneCaller a b).contains a = true ∧
      (empty.merge (loneCaller a b)).contains a = false := by
  intro a b
  refine ⟨built_loneCaller a b, contains_loneCaller a b, ?_⟩
  rw [merge, calls_loneCaller (by decide)]
  exact Bool.eq_false_iff.mpr not_contains_empty

end CallGraph

end JvmCalls
