import JvmCalls.Proofs.Flow.Failure

/-! The two modes of an analysis compared. Ignoring exceptions takes edges
away and adds none, so fewer paths lead to a node, and more nodes are on all
of them. -/
namespace JvmCalls

section

variable {c : Code} {u v a b : FlowNode} {nodes : List FlowNode}

/-- Normal flow is part of the flow in both modes. -/
theorem FlowEdge.of_ignoring (h : FlowEdge c true u v) (ignoreExceptions : Bool) :
    FlowEdge c ignoreExceptions u v := by
  cases h with
  | first hFirst => exact .first hFirst
  | firstHandler hFollowed => cases hFollowed
  | branch hInstr hLeads => exact .branch hInstr hLeads
  | branchHandler hFollowed => cases hFollowed
  | ret hInstr hReturn => exact .ret hInstr hReturn

/-- A path without exceptions is a path in both modes. So exceptions can
only take dominators away. -/
theorem FlowPath.of_ignoring (h : FlowPath c true nodes v) (ignoreExceptions : Bool) :
    FlowPath c ignoreExceptions nodes v := by
  induction h with
  | entry => exact .entry
  | step prior last ih => exact ih.step (last.of_ignoring ignoreExceptions)

theorem FlowReachable.of_ignoring (h : FlowReachable c true v) (ignoreExceptions : Bool) :
    FlowReachable c ignoreExceptions v := by
  obtain ⟨nodes, hPath⟩ := h
  exact ⟨nodes, hPath.of_ignoring ignoreExceptions⟩

/-- What is on all paths is on all paths without exceptions, as these are
among them. -/
theorem FlowDominates.ignoring {ignoreExceptions : Bool}
    (h : FlowDominates c ignoreExceptions a b) : FlowDominates c true a b := by
  intro nodes hPath
  exact h nodes (hPath.of_ignoring ignoreExceptions)

/-- An edge of normal flow that leads out of the code does so in both
modes. -/
theorem FlowLeaves.of_ignoring (h : FlowLeaves c true u) (ignoreExceptions : Bool) :
    FlowLeaves c ignoreExceptions u := by
  cases h with
  | branch hInstr hBranch hTarget => exact .branch hInstr hBranch hTarget
  | firstHandler hFollowed => cases hFollowed
  | branchHandler hFollowed => cases hFollowed

end

/-- An analysis that succeeds in one mode succeeds without exceptions, as it
meets fewer edges and none that the other one did not meet. -/
theorem DominatorTable.exists_ofCode_ignoring {c : Code} {ignoreExceptions : Bool}
    (hNodup : c.addresses.Nodup) {t : DominatorTable}
    (h : (ofCode c ignoreExceptions).value = .ok t) : ∃ t', (ofCode c true).value = .ok t' := by
  cases hTable : (ofCode c true).value with
  | ok t' => exact ⟨t', rfl⟩
  | error e =>
      obtain ⟨u, hReachable, hLeaves⟩ := (ofCode_error hNodup hTable).2
      have hStays := not_leaves_of_reachable hNodup h (hReachable.of_ignoring ignoreExceptions)
      exact False.elim (hStays (hLeaves.of_ignoring ignoreExceptions))

namespace Dominators

variable {d d' : Dominators} {signature : MethodSignature} {c : Code}

/-- The answer of a finished analysis is yes for nodes of the code that are
on every path to a node which is reached, and for no others. -/
theorem dominates_eq_true_iff (hNodup : c.addresses.Nodup)
    (hOk : (d.analyze signature c).value = (.ok (), d')) (a b : FlowNode) :
    d'.dominates a b = .ok true ↔
      c.HasNode a ∧ FlowReachable c d.ignoreExceptions b ∧
        FlowDominates c d.ignoreExceptions a b := by
  obtain ⟨hMethod, hTable⟩ := analyze_ok hOk
  constructor
  · intro hYes
    obtain ⟨s, hSet, k, hIndex, -⟩ : ∃ s, d'.results.reachedSet b = .ok s ∧
        ∃ k, a.index c.addresses = .ok k ∧ s.contains k = true := by
      rw [← DominatorTable.addresses_of_ofCode hTable]
      simpa only [dominates, table_of_method hMethod, bind_eq_ok_iff, Except.ok.injEq,
        exists_eq_left', pure, Except.pure] using hYes
    have hNode := FlowNode.hasNode_of_index hIndex
    have hReachable :=
      (DominatorTable.reachedSet_ok_iff_reachable hNodup hTable b).mp ⟨s, hSet⟩
    obtain ⟨answer, hAnswer, hIff⟩ := dominates_of_reachable hNodup hOk hNode hReachable
    exact ⟨hNode, hReachable, hIff.mp (Except.ok.inj (hAnswer.symm.trans hYes))⟩
  · intro hDominated
    obtain ⟨hNode, hReachable, hDominates⟩ := hDominated
    obtain ⟨answer, hAnswer, hIff⟩ := dominates_of_reachable hNodup hOk hNode hReachable
    rw [hAnswer, hIff.mpr hDominates]

/-- Where an analysis succeeds, be it one that follows exceptions, another
that ignores them succeeds too. It reaches no further nodes, and what
dominates a node that it reaches still does. -/
theorem ignoring_exceptions_enlarges_dominance (hIncreasing : c.addresses.Pairwise (· < ·))
    (hOk : (d.analyze signature c).value = (.ok (), d')) {e : Dominators}
    (hIgnores : e.ignoreExceptions = true) (other : MethodSignature) :
    ∃ e', (e.analyze other c).value = (.ok (), e') ∧
      (∀ b, e'.isReached b = true → d'.isReached b = true) ∧
      ∀ a b, e'.isReached b = true → d'.dominates a b = .ok true →
        e'.dominates a b = .ok true := by
  have hNodup : c.addresses.Nodup := hIncreasing.imp Address.ne_of_lt
  obtain ⟨-, hTable⟩ := analyze_ok hOk
  obtain ⟨t', hTable'⟩ := DominatorTable.exists_ofCode_ignoring hNodup hTable
  have hOk' : (e.analyze other c).value =
      (.ok (), { e with method? := some other, results := t' }) := by
    simp [analyze, hIgnores, hTable']
  refine ⟨_, hOk', ?_, ?_⟩
  · intro b hReached
    rw [isReached_iff_reachable hNodup hOk', hIgnores] at hReached
    rw [isReached_iff_reachable hNodup hOk]
    exact hReached.of_ignoring _
  · intro a b hReached hDominates
    rw [isReached_iff_reachable hNodup hOk'] at hReached
    obtain ⟨hNode, -, hDominates⟩ := (dominates_eq_true_iff hNodup hOk a b).mp hDominates
    rw [dominates_eq_true_iff hNodup hOk']
    exact ⟨hNode, hReached, hIgnores ▸ hDominates.ignoring⟩

end Dominators

/-- The head of the loop stays in front of its body. -/
theorem retryLoop_ignoring_exceptions :
    retryLoop.addresses.Pairwise (· < ·) ∧
      ∃ e', (Dominators.analyze (.new true) (.of "t/A" "f" "()V") retryLoop).value =
          (.ok (), e') ∧
        e'.dominates (.instr ⟨0⟩) (.instr ⟨3⟩) = .ok true := by
  have hIncreasing : retryLoop.addresses.Pairwise (· < ·) := by decide
  have hOk : (Dominators.analyze (.new false) (.of "t/A" "f" "()V") retryLoop).value =
      (.ok (), ⟨false, some (.of "t/A" "f" "()V"),
        ⟨[⟨0⟩, ⟨3⟩, ⟨6⟩], #[some ⟨9⟩, some ⟨11⟩, some ⟨12⟩, some ⟨8⟩, some ⟨28⟩]⟩⟩) := by
    simp [Dominators.analyze, retryLoop_sets]
  obtain ⟨e', hOk', -, hEnlarged⟩ := Dominators.ignoring_exceptions_enlarges_dominance
    hIncreasing hOk (e := .new true) rfl (.of "t/A" "f" "()V")
  refine ⟨hIncreasing, e', hOk', hEnlarged _ _ ?_ rfl⟩
  rw [Dominators.isReached_iff_reachable (hIncreasing.imp Address.ne_of_lt) hOk']
  have hLeads : (⟨⟨0⟩, .branch .eq .zero 6⟩ : PlacedInstr).LeadsTo ⟨3⟩ :=
    ⟨.ifFalse .eq .zero, List.mem_cons_of_mem _ (List.mem_singleton.mpr rfl)⟩
  exact (FlowReachable.entry.step (.first rfl)).step (.branch List.mem_cons_self hLeads)

end JvmCalls
