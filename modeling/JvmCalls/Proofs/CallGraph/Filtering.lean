import JvmCalls.Proofs.CallGraph.Walks

/-! Filtering a call graph. What stays are the methods from which calls lead
to a matching method and the calls among them, all in the order that they
had. The paths to matching methods stay whole, so filtering again changes
nothing. -/
namespace JvmCalls.CallGraph

variable {g : CallGraph} {p : MethodSignature → Bool} {kept : List Nat} {s : MethodSignature}

/-- Asking the index for a method is asking whether the graph has it. -/
theorem Indexed.contains_iff (h : g.Indexed) : g.contains s = true ↔ s ∈ g.methods := by
  rw [contains, Option.isSome_iff_exists, Array.mem_iff_getElem?]
  exact exists_congr fun i => h.index s i

/-- A method is kept where its position is, and methods that are kept stay
in order. -/
theorem Indexed.methods_restrict (h : g.Indexed) (kept : List Nat) :
    (g.restrict kept).methods.toList =
      g.methods.toList.filter fun s => (g.find? s).any kept.contains := by
  have hAgree (i : Nat) (s : MethodSignature) (hs : g.methods.toList[i]? = some s) :
      kept.contains i = (g.find? s).any kept.contains := by
    rw [Array.getElem?_toList] at hs
    rw [find?, (h.index s i).mpr hs, Option.any_some]
  rw [← filterMap_filter_range g.methods.toList hAgree]
  simp only [Array.getElem?_toList, Array.length_toList]
  rfl

/-- The index of what is kept knows the methods that are kept and no
others. -/
theorem Indexed.contains_restrict (h : g.Indexed) :
    (g.restrict kept).contains s = (g.find? s).any kept.contains := by
  have hKnown (hKept : (g.find? s).any kept.contains = true) : s ∈ g.methods := by
    obtain ⟨i, hFind, -⟩ := (Option.any_eq_true _ _).mp hKept
    exact Array.mem_of_getElem? ((h.index s i).mp hFind)
  rw [Bool.eq_iff_iff, (h.restrict kept).contains_iff, ← Array.mem_toList_iff,
    h.methods_restrict, List.mem_filter, Array.mem_toList_iff, and_iff_right_of_imp hKnown]

theorem Indexed.methods_restrict_eq (h : g.Indexed) :
    (g.restrict kept).methods.toList = g.methods.toList.filter (g.restrict kept).contains := by
  rw [h.methods_restrict]
  exact List.filter_congr fun s _ => h.contains_restrict.symm

/-- An end of a call is kept with its method. -/
theorem Indexed.contains_position (h : g.Indexed) {i : Nat} (hs : g.methods[i]? = some s) :
    (g.positions.filter kept.contains).contains i = (g.restrict kept).contains s := by
  have hMem : i ∈ g.positions := mem_positions.mpr ⟨s, hs⟩
  rw [h.contains_restrict, find?, (h.index s i).mpr hs, Option.any_some, Bool.eq_iff_iff]
  simp [hMem]

/-- A call is kept just if both of its ends are. No call is left without one
of its methods. -/
theorem Indexed.calls_restrict_eq (h : g.Indexed) :
    (g.restrict kept).calls = g.calls.filter fun c =>
      (g.restrict kept).contains c.callerSignature &&
        (g.restrict kept).contains c.targetSignature := by
  rw [calls_restrict, calls, List.filter_map]
  refine congrArg (List.map CallEdge.call) (List.filter_congr ?_)
  intro e he
  have hEdge := Array.mem_toList_iff.mp he
  rw [h.contains_position (h.source e hEdge), h.contains_position (h.target e hEdge)]
  rfl

theorem findIdx?_positions {i : Nat} (hi : i ∈ g.positions) :
    g.positions.findIdx? (· == i) = some i := by
  have hLt : i < g.positions.length := by simpa [positions] using hi
  refine List.findIdx?_eq_some_iff_getElem.mpr ⟨hLt, by simp [positions], ?_⟩
  intro j hj
  simp only [positions, List.getElem_range, beq_iff_eq]
  omega

/-- Where all positions are kept, every edge keeps its ends. -/
theorem Indexed.renumber?_positions (h : g.Indexed) {e : CallEdge} (he : e ∈ g.edges) :
    CallEdge.renumber? g.positions e = some e := by
  have hSource := findIdx?_positions (mem_positions.mpr ⟨_, h.source e he⟩)
  have hTarget := findIdx?_positions (mem_positions.mpr ⟨_, h.target e he⟩)
  rw [CallEdge.renumber?, hSource, hTarget]
  rfl

/-- Where all positions are kept, everything stays in its place. Only the
index is built anew. -/
theorem Indexed.restrict_all (h : g.Indexed) (hAll : ∀ i ∈ g.positions, i ∈ kept) :
    g.restrict kept = { g with index := Std.HashMap.ofList g.methods.toList.zipIdx } := by
  have hPositions : g.positions.filter kept.contains = g.positions := by
    apply List.filter_eq_self.mpr
    intro i hi
    exact List.contains_iff_mem.mpr (hAll i hi)
  have hMethods : g.positions.filterMap (fun i => g.methods[i]?) = g.methods.toList := by
    simpa [positions] using filterMap_getElem?_range g.methods.toList
  have hEdges : g.edges.toList.filterMap (CallEdge.renumber? g.positions) = g.edges.toList := by
    conv_rhs => rw [← List.filterMap_some (l := g.edges.toList)]
    apply List.filterMap_congr
    intro e he
    exact h.renumber?_positions (Array.mem_toList_iff.mp he)
  rw [CallGraph.restrict, hPositions, hMethods, hEdges]

/-- Calls lead from the method to one that matches, which may be the method
itself. -/
def LeadsTo (g : CallGraph) (p : MethodSignature → Bool) (s : MethodSignature) : Prop :=
  ∃ t ∈ g.methods, p t = true ∧ Relation.ReflTransGen g.Invokes s t

/-- The search goes against the calls, from all matching methods at once. So
it finds the methods from which calls lead to one of them. -/
theorem Indexed.mem_leadingTo (h : g.Indexed) {i : Nat} (hs : g.methods[i]? = some s) :
    i ∈ g.leadingTo p ↔ g.LeadsTo p s := by
  rw [leadingTo, h.sources_follow.mem_collect h.labelling hs]
  simp only [Relation.reflTransGen_swap, List.mem_filter]
  constructor
  · rintro ⟨j, ⟨-, hMatch⟩, t, ht, hPath⟩
    rw [ht, Option.any_some] at hMatch
    exact ⟨t, Array.mem_of_getElem? ht, hMatch, hPath⟩
  · rintro ⟨t, hKnown, hMatch, hPath⟩
    obtain ⟨j, ht⟩ := Array.mem_iff_getElem?.mp hKnown
    exact ⟨j, ⟨mem_positions.mpr ⟨t, ht⟩, by rw [ht, Option.any_some, hMatch]⟩, t, ht, hPath⟩

theorem Indexed.mem_of_invokes (h : g.Indexed) {s t : MethodSignature} (hInvokes : g.Invokes s t) :
    s ∈ g.methods := by
  obtain ⟨i, _, hs, -⟩ := h.targets_follow.steps s t hInvokes
  exact Array.mem_of_getElem? hs

/-- What leads to a matching method is itself a method of the graph. -/
theorem Indexed.mem_of_leadsTo (h : g.Indexed) (hLeads : g.LeadsTo p s) : s ∈ g.methods := by
  obtain ⟨t, hKnown, -, hPath⟩ := hLeads
  rcases hPath.cases_head with rfl | ⟨_, hFirst, -⟩
  · exact hKnown
  · exact h.mem_of_invokes hFirst

/-- The filter keeps exactly the methods that lead to a match. -/
theorem Indexed.contains_filter (h : g.Indexed) :
    (g.filter p).contains s = true ↔ g.LeadsTo p s := by
  rw [CallGraph.filter, h.contains_restrict, Option.any_eq_true]
  constructor
  · rintro ⟨i, hFind, hKept⟩
    exact (h.mem_leadingTo ((h.index s i).mp hFind)).mp (List.contains_iff_mem.mp hKept)
  · intro hLeads
    obtain ⟨i, hs⟩ := Array.mem_iff_getElem?.mp (h.mem_of_leadsTo hLeads)
    exact ⟨i, (h.index s i).mpr hs, List.contains_iff_mem.mpr ((h.mem_leadingTo hs).mpr hLeads)⟩

/-- Calls between methods that stay are kept. New positions do not matter,
as calls are told by the methods at their ends. -/
theorem Indexed.invokes_filter (h : g.Indexed) {s t : MethodSignature} (hInvokes : g.Invokes s t)
    (hs : g.LeadsTo p s) (ht : g.LeadsTo p t) : (g.filter p).Invokes s t := by
  obtain ⟨c, hc, rfl, rfl⟩ := hInvokes
  refine ⟨c, ?_, rfl, rfl⟩
  have hBoth : ((g.filter p).contains c.callerSignature &&
      (g.filter p).contains c.targetSignature) = true := by
    rw [Bool.and_eq_true]
    exact ⟨h.contains_filter.mpr hs, h.contains_filter.mpr ht⟩
  rw [CallGraph.filter, h.calls_restrict_eq]
  exact List.mem_filter.mpr ⟨hc, hBoth⟩

/-- A path to a matching method stays whole, as every method on it stays. -/
theorem Indexed.leadsTo_filter (h : g.Indexed) (hLeads : g.LeadsTo p s) :
    (g.filter p).LeadsTo p s := by
  have hFiltered : (g.filter p).Indexed := h.restrict _
  obtain ⟨t, hKnown, hMatch, hPath⟩ := hLeads
  have hEnd : g.LeadsTo p t := ⟨t, hKnown, hMatch, .refl⟩
  refine ⟨t, hFiltered.contains_iff.mp (h.contains_filter.mpr hEnd), hMatch, ?_⟩
  induction hPath using Relation.ReflTransGen.head_induction_on with
  | refl => exact .refl
  | head hFirst hRest ih =>
      have hNext : g.LeadsTo p _ := ⟨t, hKnown, hMatch, hRest⟩
      have hThis : g.LeadsTo p _ := ⟨t, hKnown, hMatch, hRest.head hFirst⟩
      exact ih.head (h.invokes_filter hFirst hThis hNext)

/-- Filtering again changes nothing, as every method that was kept still
leads to a match. -/
theorem Indexed.filter_filter (h : g.Indexed) : (g.filter p).filter p = g.filter p := by
  have hFiltered : (g.filter p).Indexed := h.restrict _
  have hAll : ∀ i ∈ (g.filter p).positions, i ∈ (g.filter p).leadingTo p := by
    intro i hi
    obtain ⟨s, hs⟩ := mem_positions.mp hi
    have hKept := hFiltered.contains_iff.mpr (Array.mem_of_getElem? hs)
    exact (hFiltered.mem_leadingTo hs).mpr (h.leadsTo_filter (h.contains_filter.mp hKept))
  -- The index of a filtered graph was made from its methods, as it is made again now.
  exact hFiltered.restrict_all hAll

/-- What leads to a matching method either matches or calls one of those
methods. -/
theorem Indexed.leadsTo_iff (h : g.Indexed) (hs : s ∈ g.methods) :
    g.LeadsTo p s ↔
      p s = true ∨ ∃ t ∈ g.methods, p t = true ∧ s ∈ g.callersOf t none := by
  simp only [h.mem_callersOf, Option.mem_def, reduceCtorEq, false_implies, implies_true, true_and,
    ← Reach.reflTransGen_iff_exists_steps]
  constructor
  · rintro ⟨t, hKnown, hMatch, hPath⟩
    by_cases hSame : s = t
    · exact .inl (hSame ▸ hMatch)
    · exact .inr ⟨t, hKnown, hMatch, hSame, hPath⟩
  · rintro (hMatch | ⟨t, hKnown, hMatch, -, hPath⟩)
    · exact ⟨s, hs, hMatch, .refl⟩
    · exact ⟨t, hKnown, hMatch, hPath⟩

/-- A filtered graph has exactly the methods that match and those that call
a matching method, directly or not, and exactly the calls between two of
them. Both stand in the order that they had, and filtering once more changes
nothing. -/
theorem filter_keeps_call_paths (h : Built g) (p : MethodSignature → Bool) :
    (∀ s, (g.filter p).contains s = true ↔ s ∈ g.methods ∧
      (p s = true ∨ ∃ t ∈ g.methods, p t = true ∧ s ∈ g.callersOf t none)) ∧
    (g.filter p).methods.toList = g.methods.toList.filter (g.filter p).contains ∧
    (g.filter p).calls = g.calls.filter (fun c =>
      (g.filter p).contains c.callerSignature && (g.filter p).contains c.targetSignature) ∧
    (g.filter p).filter p = g.filter p := by
  have hIndexed := h.indexed
  refine ⟨?_, hIndexed.methods_restrict_eq, hIndexed.calls_restrict_eq, hIndexed.filter_filter⟩
  intro s
  rw [hIndexed.contains_filter]
  constructor
  · intro hLeads
    have hs := hIndexed.mem_of_leadsTo hLeads
    exact ⟨hs, (hIndexed.leadsTo_iff hs).mp hLeads⟩
  · rintro ⟨hs, hCalls⟩
    exact (hIndexed.leadsTo_iff hs).mpr hCalls

/-- Two methods that call each other. The second calls a third one, and that
a last one. -/
def callTail (s t u v : MethodSignature) : CallGraph :=
  empty.addAll [plainCall s t ⟨0⟩, plainCall t s ⟨0⟩, plainCall t u ⟨3⟩, plainCall u v ⟨0⟩]

/-- Of the calls, only the last one does not lead to the third method. -/
theorem callTail_filtered :
    let a := MethodSignature.of "t/A" "f" "()V"
    let b := MethodSignature.of "t/B" "f" "()V"
    let c := MethodSignature.of "t/C" "f" "()V"
    let d := MethodSignature.of "t/D" "f" "()V"
    Built (callTail a b c d) ∧ ((callTail a b c d).filter (· == c)).contains a = true ∧
      ((callTail a b c d).filter (· == c)).contains d = false ∧
      ((callTail a b c d).filter (· == c)).calls =
        [plainCall a b ⟨0⟩, plainCall b a ⟨0⟩, plainCall b c ⟨3⟩] ∧
      ((callTail a b c d).filter (· == c)).filter (· == c) =
        (callTail a b c d).filter (· == c) := by
  intro a b c d
  have hBuilt : Built (callTail a b c d) := Built.empty.addAll _
  have hFirst : (callTail a b c d).Invokes a b := invokes_addAll.mpr (by simp)
  have hSecond : (callTail a b c d).Invokes b c := invokes_addAll.mpr (by simp)
  have hThird : (callTail a b c d).Invokes c d := invokes_addAll.mpr (by simp)
  obtain ⟨hMethods, -, hCalls, hAgain⟩ := filter_keeps_call_paths hBuilt (· == c)
  have hTarget := hBuilt.indexed.mem_of_invokes hThird
  have hKept (s t : MethodSignature) (n : Nat) (hCall : (callTail a b c d).Invokes s t)
      (hOther : s ≠ c) (hSteps : Reach.Steps (callTail a b c d).Invokes s c n) :
      ((callTail a b c d).filter (· == c)).contains s = true := by
    have hCaller : s ∈ (callTail a b c d).callersOf c none :=
      hBuilt.indexed.mem_callersOf.mpr ⟨hOther, n, by simp, hSteps⟩
    exact (hMethods s).mpr ⟨hBuilt.indexed.mem_of_invokes hCall,
      .inr ⟨c, hTarget, beq_self_eq_true c, hCaller⟩⟩
  have hA := hKept a b 2 hFirst (by decide) (.succ (.succ (.zero a) hFirst) hSecond)
  have hB := hKept b c 1 hSecond (by decide) (.succ (.zero b) hSecond)
  have hC := (hMethods c).mpr ⟨hTarget, .inl (beq_self_eq_true c)⟩
  have hD : ((callTail a b c d).filter (· == c)).contains d = false := by
    rw [← Bool.not_eq_true, hMethods]
    rintro ⟨-, hMatch | ⟨t, -, hMatch, hCaller⟩⟩
    · revert hMatch
      decide
    · obtain ⟨hOther, n, -, hSteps⟩ := hBuilt.indexed.mem_callersOf.mp hCaller
      obtain ⟨z, hCall⟩ := hSteps.exists_first hOther.symm
      have hPair := invokes_addAll.mp hCall
      simp [a, b, c, d, MethodSignature.of] at hPair
  refine ⟨hBuilt, hA, hD, ?_, hAgain⟩
  have hAll : (callTail a b c d).calls = [plainCall a b ⟨0⟩, plainCall b a ⟨0⟩,
      plainCall b c ⟨3⟩, plainCall c d ⟨0⟩] := by
    rw [callTail, calls_addAll]
    rfl
  rw [hCalls, hAll]
  simp [hA, hB, hC, hD]

end JvmCalls.CallGraph
