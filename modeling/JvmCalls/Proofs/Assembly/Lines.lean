import Mathlib.Data.List.Induction
import JvmCalls.Proofs.Assembly.Addresses

/-! The source lines of instructions. A line is noted with the address where
the builder is, and the builder never goes back. So the table ascends, later
requests at one address come later in it, and what is closest before an
instruction is the line that was noted last. -/
namespace JvmCalls

/-- The table ascends, so that its last entry counts. Of two entries at one
address the later one wins. -/
theorem LineNumber.foldl_later {l : List LineNumber}
    (hOrder : l.Pairwise fun m n => m.start ≤ n.start) : l.foldl later none = l.getLast? := by
  induction l using List.reverseRecOn with
  | nil => rfl
  | append_singleton l n ih =>
      obtain ⟨hBefore, -, hLast⟩ := List.pairwise_append.mp hOrder
      rw [List.foldl_append, ih hBefore, List.getLast?_concat]
      show later l.getLast? n = some n
      cases hFound : l.getLast? with
      | none => rfl
      | some m => exact if_pos (hLast m (List.mem_of_getLast? hFound) n (List.mem_singleton_self n))

namespace CodeBuilder

/-- The lines that some requests note, with their addresses. -/
def linesFrom (b : CodeBuilder) : List CodeOp → List LineNumber
  | [] => []
  | op :: rest =>
    op.line?.toList.map (fun number => ⟨b.next, number⟩) ++ linesFrom (step op b).2 rest

/-- A run keeps the lines that were noted before it and adds its own behind
them. -/
theorem run_lines (b : CodeBuilder) (ops : List CodeOp) :
    (b.run ops).lines.toList = b.lines.toList ++ b.linesFrom ops := by
  induction ops generalizing b with
  | nil => exact (List.append_nil _).symm
  | cons op rest ih => rw [run_cons, ih, (step_performs b op).lines, linesFrom, List.append_assoc]

/-- The requests of a second part note their lines where the first part left
the builder. -/
theorem linesFrom_append (b : CodeBuilder) (l k : List CodeOp) :
    b.linesFrom (l ++ k) = b.linesFrom l ++ (b.run l).linesFrom k := by
  induction l generalizing b with
  | nil => rfl
  | cons op rest ih =>
      rw [List.cons_append, linesFrom, linesFrom, ih, List.append_assoc]
      rfl

/-- Without their addresses, these are the lines that the requests name, in
order. -/
theorem map_line_linesFrom (b : CodeBuilder) (ops : List CodeOp) :
    (b.linesFrom ops).map LineNumber.line = ops.filterMap CodeOp.line? := by
  induction ops generalizing b with
  | nil => rfl
  | cons op rest ih =>
      rw [linesFrom, List.map_append, ih, List.filterMap_cons]
      cases op.line? with
      | none => rfl
      | some number => rfl

variable {b : CodeBuilder} {n : LineNumber}

/-- A line is noted by the first request, where the builder is, or by a
later one. -/
theorem mem_linesFrom_cons {op : CodeOp} {rest : List CodeOp} :
    n ∈ b.linesFrom (op :: rest) ↔
      (op.line? = some n.line ∧ n.start = b.next) ∨ n ∈ (step op b).2.linesFrom rest := by
  rw [linesFrom, List.mem_append]
  apply or_congr_left
  cases op.line? with
  | none => simp
  | some number =>
      obtain ⟨start, line⟩ := n
      simp [eq_comm, and_comm]

/-- A line is noted at an address between those where the builder starts and
stops. -/
theorem start_of_mem_linesFrom {ops : List CodeOp} (h : n ∈ b.linesFrom ops) :
    b.next ≤ n.start ∧ n.start ≤ (b.run ops).next := by
  induction ops generalizing b with
  | nil => cases h
  | cons op rest ih =>
      have hStep := (step_contiguous b op).le
      rcases mem_linesFrom_cons.mp h with ⟨-, hStart⟩ | hLater
      · rw [hStart]
        exact ⟨Nat.le_refl _, next_le_run b (op :: rest)⟩
      · obtain ⟨hLow, hHigh⟩ := ih hLater
        exact ⟨Nat.le_trans hStep hLow, hHigh⟩

/-- The table ascends by itself, as the builder never moves back. Nothing
sorts it. -/
theorem pairwise_linesFrom (b : CodeBuilder) (ops : List CodeOp) :
    (b.linesFrom ops).Pairwise fun m n => m.start ≤ n.start := by
  induction ops generalizing b with
  | nil => exact .nil
  | cons op rest ih =>
      rw [linesFrom]
      cases op.line? with
      | none => exact ih (step op b).2
      | some number =>
          refine .cons ?_ (ih (step op b).2)
          intro n hn
          exact Nat.le_trans (step_contiguous b op).le (start_of_mem_linesFrom hn).1

/-- A request that emits an instruction moves the builder on, unless the
instruction is empty. -/
theorem next_lt_step {op : CodeOp} {p : Pending} (hEmitted : op.emission? b.pool = some p)
    (hSize : ∀ opcode, op ≠ .instr (.other opcode 0)) : b.next < (step op b).2.next := by
  rw [(step_performs b op).next, hEmitted]
  exact Nat.lt_add_of_pos_right (CodeOp.sizeAt_pos_of_emission? hEmitted hSize b.next)

/-- Of all lines those that were noted before an instruction are at or
before its address. -/
theorem filter_linesFrom {before after : List CodeOp} {op : CodeOp} {p : Pending}
    (hEmitted : op.emission? (b.run before).pool = some p)
    (hSize : ∀ opcode, op ≠ .instr (.other opcode 0)) :
    (b.linesFrom (before ++ op :: after)).filter (fun n => n.start ≤ (b.run before).next) =
      b.linesFrom before := by
  have hBefore : ∀ n ∈ b.linesFrom before, n.start ≤ (b.run before).next := fun n hn =>
    (start_of_mem_linesFrom hn).2
  have hAfter : ∀ n ∈ (b.run before).linesFrom (op :: after), ¬ n.start ≤ (b.run before).next := by
    intro n hn
    rcases mem_linesFrom_cons.mp hn with ⟨hLine, -⟩ | hLater
    · rw [CodeOp.line?_of_emission? hEmitted] at hLine
      cases hLine
    -- The instruction has a size, so that what is noted later is noted behind its address.
    · have hNext := next_lt_step hEmitted hSize
      have hStart := (start_of_mem_linesFrom hLater).1
      exact Nat.not_le_of_gt (Nat.lt_of_lt_of_le hNext hStart)
  rw [linesFrom_append, List.filter_append, List.filter_eq_self.mpr (by simpa using hBefore),
    List.filter_eq_nil_iff.mpr (by simpa using hAfter), List.append_nil]

/-- Finishing leaves the table of lines as it is. -/
theorem lines_of_build {code : Code} (h : b.build = .ok code) : code.lines = b.lines.toList := by
  obtain ⟨instrs, -, h⟩ := bind_eq_ok_iff.mp h
  obtain ⟨handlers, -, hSame⟩ := bind_eq_ok_iff.mp h
  cases hSame
  rfl

/-- If no instruction is empty, each has the source line that was noted last
before it was emitted, and none where no line was noted before. -/
theorem lines_follow_requests (pool : ConstantPool) {ops before after : List CodeOp} {op : CodeOp}
    {emitted : Pending} {code : Code} (hBuilt : (run { pool } ops).build = .ok code)
    (hSizes : ∀ opcode, .instr (.other opcode 0) ∉ ops) (hOps : ops = before ++ op :: after)
    (hEmitted : op.emission? (run { pool } before).pool = some emitted) :
    ∃ p, code.instrs[(run { pool } before).pending.size]? = some p ∧
      Pending.Fills (PlacedAt { pool } ops) ((run { pool } before).next, emitted) p ∧
      code.lineAt? p.address = (before.filterMap CodeOp.line?).getLast? := by
  have hSize : ∀ opcode, op ≠ .instr (.other opcode 0) := by
    rintro opcode rfl
    apply hSizes opcode
    rw [hOps]
    exact List.mem_append_cons_self
  obtain ⟨p, hp, hFills⟩ :=
    getElem?_of_forall₂ (fills_emissions hBuilt) (getElem?_emissions hOps hEmitted)
  refine ⟨p, hp, hFills, ?_⟩
  have hLines : code.lines = linesFrom { pool } ops := by
    rw [lines_of_build hBuilt, run_lines]
    rfl
  rw [Code.lineAt?, hLines, hFills.address, hOps, filter_linesFrom hEmitted hSize,
    LineNumber.foldl_later (pairwise_linesFrom { pool } before), ← List.getLast?_map,
    map_line_linesFrom]

end CodeBuilder

/-- Two lines at one address, and one behind the last instruction. -/
def linedRequests : List CodeOp :=
  [.instr (.other 26 1), .line 10, .line 11, .instr (.other 27 1), .instr (.ret .void), .line 12]

def linedCode : Code where
  maxStack := 0
  maxLocals := 0
  instrs := [⟨⟨0⟩, .other 26 1⟩, ⟨⟨1⟩, .other 27 1⟩, ⟨⟨2⟩, .ret .void⟩]
  handlers := []
  lines := [⟨⟨1⟩, 10⟩, ⟨⟨1⟩, 11⟩, ⟨⟨3⟩, 12⟩]

/-- The first instruction has no line, and the other two have the second of
the lines. -/
theorem linedCode_lines :
    (CodeBuilder.run { pool := {} } linedRequests).build = .ok linedCode ∧
      (∀ opcode, .instr (.other opcode 0) ∉ linedRequests) ∧
      linedCode.lineAt? ⟨0⟩ = none ∧ linedCode.lineAt? ⟨1⟩ = some 11 ∧
      linedCode.lineAt? ⟨2⟩ = some 11 := by
  have hBuilt : (CodeBuilder.run { pool := {} } linedRequests).build = .ok linedCode := rfl
  have hSizes : ∀ opcode, .instr (.other opcode 0) ∉ linedRequests := by
    intro opcode
    simp [linedRequests]
  refine ⟨hBuilt, hSizes, ?_, ?_, ?_⟩
  · obtain ⟨p, hp, -, hLine⟩ := CodeBuilder.lines_follow_requests {} hBuilt hSizes
      (show linedRequests = [] ++ .instr (.other 26 1) :: linedRequests.drop 1 from rfl) rfl
    cases hp
    exact hLine
  · obtain ⟨p, hp, -, hLine⟩ := CodeBuilder.lines_follow_requests {} hBuilt hSizes
      (show linedRequests = linedRequests.take 3 ++ .instr (.other 27 1) :: linedRequests.drop 4
        from rfl) rfl
    cases hp
    exact hLine
  · obtain ⟨p, hp, -, hLine⟩ := CodeBuilder.lines_follow_requests {} hBuilt hSizes
      (show linedRequests = linedRequests.take 4 ++ .instr (.ret .void) :: linedRequests.drop 5
        from rfl) rfl
    cases hp
    exact hLine

end JvmCalls
