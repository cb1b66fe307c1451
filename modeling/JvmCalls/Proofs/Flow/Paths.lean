import JvmCalls.Flow.Dominance

/-! The flow graph of a method, as a relation between nodes. It is described
by the instructions and the exception table alone, without the order in
which an analysis follows edges. An edge may lead to an address at which no
instruction stands; nothing goes on from there. -/
namespace JvmCalls

/-- Normal flow goes from an instruction to an address: it is the target of
a branch or of a switch, or the next address of an instruction that falls
through. -/
def PlacedInstr.LeadsTo (p : PlacedInstr) (a : Address) : Prop :=
  ∃ b, (b, some a) ∈ p.branches

/-- An exception thrown at one address may continue at the other. Which type
it has is not asked. -/
def Code.Catches (c : Code) (a handler : Address) : Prop :=
  ∃ h ∈ c.handlers, h.covers a = true ∧ h.handler = handler

/-- The nodes of the flow graph: the entry, the exit and the instructions of
the code. -/
def Code.HasNode (c : Code) : FlowNode → Prop
  | .entry => True
  | .instr a => a ∈ c.addresses
  | .exit => True

instance (c : Code) : (node : FlowNode) → Decidable (c.HasNode node)
  | .entry => inferInstanceAs (Decidable True)
  | .instr a => inferInstanceAs (Decidable (a ∈ c.addresses))
  | .exit => inferInstanceAs (Decidable True)

/-- Edges of the flow graph. An exception edge skips the instruction that
throws: it starts where that instruction would have been entered from. -/
inductive FlowEdge (c : Code) (ignoreExceptions : Bool) : FlowNode → FlowNode → Prop where
  | first {p : PlacedInstr} (hFirst : c.instrs.head? = some p) :
      FlowEdge c ignoreExceptions .entry (.instr p.address)
  | firstHandler {p : PlacedInstr} {a : Address} (hFollowed : ignoreExceptions = false)
      (hFirst : c.instrs.head? = some p) (hCatches : c.Catches p.address a) :
      FlowEdge c ignoreExceptions .entry (.instr a)
  | branch {p : PlacedInstr} {a : Address} (hInstr : p ∈ c.instrs) (hLeads : p.LeadsTo a) :
      FlowEdge c ignoreExceptions (.instr p.address) (.instr a)
  | branchHandler {p : PlacedInstr} {a b : Address} (hFollowed : ignoreExceptions = false)
      (hInstr : p ∈ c.instrs) (hLeads : p.LeadsTo a) (hCatches : c.Catches a b) :
      FlowEdge c ignoreExceptions (.instr p.address) (.instr b)
  | ret {p : PlacedInstr} (hInstr : p ∈ c.instrs) (hReturn : p.instr.isReturn = true) :
      FlowEdge c ignoreExceptions (.instr p.address) .exit

/-- Paths from the entry, with all the nodes they go through, the last one
first. A node may come several times, so that loops are paths too. -/
inductive FlowPath (c : Code) (ignoreExceptions : Bool) : List FlowNode → FlowNode → Prop where
  | entry : FlowPath c ignoreExceptions [.entry] .entry
  | step {nodes : List FlowNode} {u v : FlowNode} (prior : FlowPath c ignoreExceptions nodes u)
      (last : FlowEdge c ignoreExceptions u v) : FlowPath c ignoreExceptions (v :: nodes) v

/-- Some path leads from the entry to the node. It may go through
instructions more than once. -/
def FlowReachable (c : Code) (ignoreExceptions : Bool) (b : FlowNode) : Prop :=
  ∃ nodes, FlowPath c ignoreExceptions nodes b

/-- Every path from the entry to `b` goes through `a`. Of a node without
paths this holds of every `a`. -/
def FlowDominates (c : Code) (ignoreExceptions : Bool) (a b : FlowNode) : Prop :=
  ∀ nodes, FlowPath c ignoreExceptions nodes b → a ∈ nodes

section

variable {c : Code} {ignoreExceptions : Bool} {u v a : FlowNode}

theorem FlowReachable.entry : FlowReachable c ignoreExceptions .entry := ⟨_, .entry⟩

theorem FlowReachable.step (hReached : FlowReachable c ignoreExceptions u)
    (hEdge : FlowEdge c ignoreExceptions u v) : FlowReachable c ignoreExceptions v := by
  obtain ⟨nodes, hPath⟩ := hReached
  exact ⟨v :: nodes, hPath.step hEdge⟩

/-- Nothing leads back to the entry. -/
theorem not_flowEdge_entry : ¬ FlowEdge c ignoreExceptions u .entry := by
  intro hEdge
  cases hEdge

/-- Nothing goes on from the exit. -/
theorem not_flowEdge_from_exit : ¬ FlowEdge c ignoreExceptions .exit v := by
  intro hEdge
  cases hEdge

/-- Only returns lead to the exit. -/
theorem FlowEdge.of_exit (hEdge : FlowEdge c ignoreExceptions u .exit) :
    ∃ p ∈ c.instrs, u = .instr p.address ∧ p.instr.isReturn = true := by
  cases hEdge with
  | ret hInstr hReturn => exact ⟨_, hInstr, rfl, hReturn⟩

/-- The empty path from the entry to itself goes through nothing else. -/
theorem FlowDominates.eq_entry (h : FlowDominates c ignoreExceptions a .entry) : a = .entry := by
  simpa using h [.entry] .entry

/-- What dominates the target of an edge is the target or dominates the
source. -/
theorem FlowDominates.of_edge (h : FlowDominates c ignoreExceptions a v)
    (hEdge : FlowEdge c ignoreExceptions u v) :
    a = v ∨ FlowDominates c ignoreExceptions a u := by
  by_cases hTarget : a = v
  · exact Or.inl hTarget
  · refine Or.inr ?_
    intro nodes hPath
    rcases List.mem_cons.mp (h (v :: nodes) (hPath.step hEdge)) with hSame | hMem
    · exact False.elim (hTarget hSame)
    · exact hMem

end

namespace Code

/-- The handlers that are followed are those that catch at the address,
unless exceptions are ignored. -/
theorem mem_handlerTargets {c : Code} {ignoreExceptions : Bool} {a handler : Address} :
    handler ∈ c.handlerTargets ignoreExceptions a ↔
      ignoreExceptions = false ∧ c.Catches a handler := by
  cases ignoreExceptions with
  | true => simp [handlerTargets]
  | false =>
      simp [handlerTargets, exceptionBranches, handlersCovering, Catches, and_assoc]

theorem checkTarget_ok {c : Code} {source : Address} {b r : Branch × Option Address}
    (h : c.checkTarget source b = .ok r) :
    r = b ∧ ∃ a, b.2 = some a ∧ (c.instrAt? a).isSome = true := by
  obtain ⟨branch, target⟩ := b
  cases target with
  | none => simp [checkTarget] at h
  | some a =>
      by_cases hFound : (c.instrAt? a).isSome = true
      · simp only [checkTarget, hFound, if_true, Except.ok.injEq] at h
        exact ⟨h.symm, a, rfl, hFound⟩
      · simp [checkTarget, hFound] at h

theorem isSome_instrAt?_iff {c : Code} {a : Address} :
    (c.instrAt? a).isSome = true ↔ a ∈ c.addresses := by
  simp [instrAt?, addresses, List.find?_isSome]

/-- A target is accepted just if it is an address at which an instruction
stands. -/
theorem checkTarget_eq_ok_iff {c : Code} {source : Address} {kind : Branch}
    {target : Option Address} {t : Branch × Option Address} :
    c.checkTarget source (kind, target) = .ok t ↔
      ∃ a, target = some a ∧ a ∈ c.addresses ∧ t = (kind, some a) := by
  constructor
  · intro hOk
    obtain ⟨rfl, a, hTarget, hFound⟩ := checkTarget_ok hOk
    exact ⟨a, hTarget, isSome_instrAt?_iff.mp hFound, congrArg (Prod.mk kind) hTarget⟩
  · rintro ⟨a, rfl, hMem, rfl⟩
    simp [checkTarget, isSome_instrAt?_iff.mpr hMem]

/-- The error names the instruction that branches, and not the place where
it branches to. -/
theorem error_of_checkTarget {c : Code} {source : Address} {b : Branch × Option Address}
    {e : FlowError} (h : c.checkTarget source b = .error e) : e = .branchTargetNotFound source := by
  unfold checkTarget at h
  split at h
  · split at h
    · cases h
    · cases h
      rfl
  · cases h
    rfl

/-- Accepted targets are given back as they are, all of them with an
instruction. -/
theorem mapM_checkTarget_ok {c : Code} {source : Address}
    {l r : List (Branch × Option Address)} (h : l.mapM (c.checkTarget source) = .ok r) :
    r = l ∧ ∀ b ∈ l, ∃ a, b.2 = some a ∧ (c.instrAt? a).isSome = true := by
  induction l generalizing r with
  | nil =>
      simp only [List.mapM_nil, pure, Except.pure, Except.ok.injEq] at h
      exact ⟨h.symm, by simp⟩
  | cons b rest ih =>
      rw [List.mapM_cons] at h
      cases hHead : c.checkTarget source b with
      | error e => simp [hHead, bind, Except.bind] at h
      | ok first =>
          cases hTail : rest.mapM (c.checkTarget source) with
          | error e => simp [hHead, hTail, bind, Except.bind] at h
          | ok others =>
              simp only [hHead, hTail, bind, Except.bind, pure, Except.pure,
                Except.ok.injEq] at h
              obtain ⟨rfl, hFirst⟩ := checkTarget_ok hHead
              obtain ⟨rfl, hOthers⟩ := ih hTail
              refine ⟨h.symm, ?_⟩
              intro x hx
              rcases List.mem_cons.mp hx with rfl | hx
              · exact hFirst
              · exact hOthers x hx

/-- A return has no branches. The exit is its only successor. -/
theorem branches_of_isReturn {p : PlacedInstr} (h : p.instr.isReturn = true) :
    p.branches = [] := by
  cases hInstr : p.instr <;> simp_all [Instr.isReturn, PlacedInstr.branches]

/-- The successors of an instruction, where there is no error: a return
leads to the exit, every other instruction to the targets of its
branches. -/
theorem successors_ok {c : Code} {p : PlacedInstr} {l : List (Branch × Option Address)}
    (h : c.successors p = .ok l) :
    (∀ a, (∃ b, (b, some a) ∈ l) ↔ p.LeadsTo a) ∧
      (l.any (·.2.isNone) = true ↔ p.instr.isReturn = true) := by
  by_cases hReturn : p.instr.isReturn = true
  · simp only [successors, hReturn, if_true, Except.ok.injEq] at h
    subst h
    simp [PlacedInstr.LeadsTo, branches_of_isReturn hReturn, hReturn]
  · simp only [successors, hReturn, Bool.false_eq_true, if_false] at h
    obtain ⟨rfl, hTargets⟩ := mapM_checkTarget_ok h
    refine ⟨fun a => Iff.rfl, ?_⟩
    constructor
    · intro hAny
      obtain ⟨b, hb, hNone⟩ := List.any_eq_true.mp hAny
      obtain ⟨a, ha, -⟩ := hTargets b hb
      simp [ha] at hNone
    · intro hIsReturn
      exact False.elim (hReturn hIsReturn)

/-- The targets that an analysis follows from an instruction are its edges,
the exit apart. -/
theorem mem_flowTargets {c : Code} {ignoreExceptions : Bool} {p : PlacedInstr}
    {l : List (Branch × Option Address)} (hInstr : p ∈ c.instrs)
    (hUnique : ∀ q ∈ c.instrs, q.address = p.address → q = p)
    (h : c.successors p = .ok l) (target : Address) :
    target ∈ c.flowTargets ignoreExceptions l ↔
      FlowEdge c ignoreExceptions (.instr p.address) (.instr target) := by
  have hLeads := (successors_ok h).1
  rw [flowTargets, mem_sortedDistinct]
  simp only [List.mem_flatMap, List.mem_filterMap, Prod.exists, exists_eq_right, List.mem_cons,
    mem_handlerTargets, hLeads]
  constructor
  · rintro ⟨a, hA, rfl | ⟨hFollowed, hCatches⟩⟩
    · exact .branch hInstr hA
    · exact .branchHandler hFollowed hInstr hA hCatches
  · intro hEdge
    generalize hSource : FlowNode.instr p.address = source at hEdge
    generalize hTarget : FlowNode.instr target = node at hEdge
    cases hEdge with
    | first => cases hSource
    | firstHandler => cases hSource
    | ret => cases hTarget
    | @branch q a hq hA =>
        cases hTarget
        obtain rfl := hUnique q hq (by simpa using hSource.symm)
        exact ⟨target, hA, Or.inl rfl⟩
    | @branchHandler q a b hFollowed hq hA hCatches =>
        cases hTarget
        obtain rfl := hUnique q hq (by simpa using hSource.symm)
        exact ⟨a, hA, Or.inr ⟨hFollowed, hCatches⟩⟩

/-- The targets that an analysis starts with are the edges of the entry: the
first instruction and, with exceptions, the handlers that cover it. -/
theorem mem_entryTargets {c : Code} {ignoreExceptions : Bool} (target : Address) :
    target ∈ c.entryTargets ignoreExceptions ↔
      FlowEdge c ignoreExceptions .entry (.instr target) := by
  cases hInstrs : c.instrs with
  | nil =>
      simp only [entryTargets, hInstrs, List.not_mem_nil, false_iff]
      intro hEdge
      cases hEdge with
      | first hFirst => simp [hInstrs] at hFirst
      | firstHandler _ hFirst _ => simp [hInstrs] at hFirst
  | cons p rest =>
      simp only [entryTargets, hInstrs, List.mem_cons, mem_handlerTargets]
      constructor
      · rintro (rfl | ⟨hFollowed, hCatches⟩)
        · exact .first (by simp [hInstrs])
        · exact .firstHandler hFollowed (by simp [hInstrs]) hCatches
      · intro hEdge
        cases hEdge with
        | first hFirst =>
            simp only [hInstrs, List.head?_cons, Option.some.injEq] at hFirst
            exact Or.inl (by rw [hFirst])
        | firstHandler hFollowed hFirst hCatches =>
            simp only [hInstrs, List.head?_cons, Option.some.injEq] at hFirst
            exact Or.inr ⟨hFollowed, by rw [hFirst]; exact hCatches⟩

end Code

end JvmCalls
