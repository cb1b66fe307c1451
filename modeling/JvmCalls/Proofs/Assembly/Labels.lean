import JvmCalls.Proofs.Assembly.Layout
import JvmCalls.Proofs.Except
import JvmCalls.Proofs.Flow.Paths

/-! Labels and the offsets that take their place. Finished code leads from
each branch to where its labels were placed, if an instruction stands
there. -/
namespace JvmCalls

section Lists

variable {α β : Type}

theorem forall₂_zipIdx {R : α → β → Prop} {l : List α} {k : List β} (h : List.Forall₂ R l k)
    (n : Nat) : List.Forall₂ (fun x y => R x.1 y.1 ∧ x.2 = y.2) (l.zipIdx n) (k.zipIdx n) := by
  induction h generalizing n with
  | nil => exact .nil
  | cons hFirst hRest ih =>
      rw [List.zipIdx_cons, List.zipIdx_cons]
      exact .cons ⟨hFirst, rfl⟩ (ih (n + 1))

theorem getElem?_of_forall₂ {R : α → β → Prop} {l : List α} {k : List β}
    (h : List.Forall₂ R l k) {i : Nat} {a : α} (ha : l[i]? = some a) :
    ∃ b, k[i]? = some b ∧ R a b := by
  induction h generalizing i with
  | nil => cases ha
  | cons hFirst hRest ih =>
      cases i with
      | zero =>
          cases ha
          exact ⟨_, rfl, hFirst⟩
      | succ i => exact ih ha

end Lists

namespace Address

/-- Distances between addresses below this limit fit into 32 bits. -/
def signedLimit : Nat := 1 <<< 31

/-- Below the limit the distance between addresses does not wrap, so that it
is the difference of their offsets. -/
theorem toInt_distanceTo {source target : Address} (hSource : source.offset < signedLimit)
    (hTarget : target.offset < signedLimit) :
    (source.distanceTo target).toInt = target.offset - source.offset := by
  have hLimit : signedLimit = 2147483648 := rfl
  rw [hLimit] at hSource hTarget
  apply Int32.toInt_ofInt_of_le
  · omega
  · omega

/-- The distance to an address leads to that address again. The bound rules
out that the sum is past the largest address. -/
theorem shift?_distance {source target : Address} (hTarget : target.offset < signedLimit) :
    source.shift? (target.offset - source.offset) = some target := by
  have hLimit : signedLimit = 2147483648 := rfl
  have hLargest : limit = 18446744073709551616 := rfl
  rw [hLimit] at hTarget
  have hSum : (source.offset : Int) + (target.offset - source.offset) = target.offset := by omega
  rw [shift?, hSum, if_pos]
  · rfl
  · rw [hLargest]
    omega

end Address

namespace CodeBuilder

variable {b : CodeBuilder} {source : Address} {l : Label}

/-- An offset is the distance to the place of its label. It is computed in
32 bits, where it may wrap. -/
theorem offset_eq_ok_iff {distance : Int32} :
    b.offset source l = .ok distance ↔
      ∃ target, b.resolve l = .ok target ∧ source.distanceTo target = distance := by
  simp only [offset, bind_eq_ok_iff, pure, Except.pure, Except.ok.injEq]

/-- An offset of 16 bits is the distance as well, as one that does not fit
is refused instead of cut off. -/
theorem of_shortOffset {distance : Int16} (h : b.shortOffset source l = .ok distance) :
    ∃ target, b.resolve l = .ok target ∧
      distance.toInt = (source.distanceTo target).toInt := by
  rw [shortOffset, bind_eq_ok_iff] at h
  obtain ⟨wide, hWide, hShort⟩ := h
  obtain ⟨target, hTarget, rfl⟩ := offset_eq_ok_iff.mp hWide
  refine ⟨target, hTarget, ?_⟩
  split at hShort
  · rename_i hFits
    cases hShort
    apply Int16.toInt_ofInt_of_le
    · omega
    · omega
  · cases hShort

end CodeBuilder

/-- The exits of a switch. -/
def Branch.ofCases (default : Label) (cases : List (Int32 × Label)) :
    List (Branch × Option Label) :=
  (.switchDefault, some default) :: cases.map fun (key, target) => (.switchCase key, some target)

/-- Where control may go from a branch: to a label, or to the instruction
behind it. The order is that in which the successors of finished code are
listed. -/
def Pending.exits : Pending → List (Branch × Option Label)
  | ready _ => []
  | branch comparison operand target =>
    [(.ifTrue comparison operand, some target), (.ifFalse comparison operand, none)]
  | goto target => [(.jump, some target)]
  | tableSwitch low targets default =>
    Branch.ofCases default (targets.zipIdx.map fun (target, i) => (low + Int32.ofNat i, target))
  | lookupSwitch pairs default => Branch.ofCases default pairs

namespace CodeBuilder

/-- The address of an exit of a branch that is followed by the address
`next`. -/
def exitAddress? (b : CodeBuilder) (next : Address) : Option Label → Option Address
  | some l => (b.resolve l).toOption
  | none => some next

variable {b : CodeBuilder} {source : Address} {l : Label}

section Finish

variable {p : Pending} {instr : Instr} (hSource : source.offset < Address.signedLimit)
  (hLabels : ∀ l a, b.resolve l = .ok a → a.offset < Address.signedLimit)

include hSource hLabels

/-- Below the limit, an instruction that stores the distance to a label
leads to the place of the label. -/
theorem target?_of_distance {distance : Int} {target : Address}
    (hTarget : b.resolve l = .ok target) (hDistance : distance = (source.distanceTo target).toInt) :
    (⟨source, instr⟩ : PlacedInstr).target? distance = (b.resolve l).toOption := by
  have hBelow := hLabels l target hTarget
  rw [PlacedInstr.target?, hDistance, Address.toInt_distanceTo hSource hBelow,
    Address.shift?_distance hBelow, hTarget]
  rfl

theorem target?_of_offset {distance : Int32} (h : b.offset source l = .ok distance) :
    (⟨source, instr⟩ : PlacedInstr).target? distance.toInt = (b.resolve l).toOption := by
  obtain ⟨target, hTarget, hDistance⟩ := offset_eq_ok_iff.mp h
  exact target?_of_distance hSource hLabels hTarget (by rw [hDistance])

theorem target?_of_shortOffset {distance : Int16} (h : b.shortOffset source l = .ok distance) :
    (⟨source, instr⟩ : PlacedInstr).target? distance.toInt = (b.resolve l).toOption := by
  obtain ⟨target, hTarget, hDistance⟩ := of_shortOffset h
  exact target?_of_distance hSource hLabels hTarget hDistance

/-- A finished switch leads to the places of its labels, the default first
and each case under its own key. -/
theorem switch_of_offsets {default : Label} {distance : Int32} {labels : List (Int32 × Label)}
    {cases : List (Int32 × Int32)} (hDefault : b.offset source default = .ok distance)
    (hCases : List.Forall₂ (fun x y => y.1 = x.1 ∧ b.offset source x.2 = .ok y.2) labels cases)
    (next : Address) :
    PlacedInstr.branches.switch ⟨source, instr⟩ distance cases =
      (Branch.ofCases default labels).map fun exit => (exit.1, b.exitAddress? next exit.2) := by
  have hTargets : cases.map (fun x => (Branch.switchCase x.1,
      (⟨source, instr⟩ : PlacedInstr).target? x.2.toInt)) =
        labels.map fun x => (Branch.switchCase x.1, (b.resolve x.2).toOption) := by
    induction hCases with
    | nil => rfl
    | cons hFirst hRest ih =>
        rw [List.map_cons, List.map_cons, ih, hFirst.1,
          target?_of_offset hSource hLabels hFirst.2]
  rw [PlacedInstr.branches.switch, Branch.ofCases, List.map_cons, List.map_map, hTargets,
    target?_of_offset hSource hLabels hDefault]
  rfl

/-- The offsets of a finished branch lead to its labels, and what is not a
jump leads on to the instruction behind as well. -/
theorem branches_finish (hBranching : ∀ i, p ≠ .ready i) (hFinish : b.finish source p = .ok instr) :
    (⟨source, instr⟩ : PlacedInstr).branches =
      p.exits.map fun exit =>
        (exit.1, b.exitAddress? (⟨source, instr⟩ : PlacedInstr).next exit.2) := by
  cases p with
  | ready i => exact False.elim (hBranching i rfl)
  | branch | goto =>
      obtain ⟨distance, hDistance, hSame⟩ := bind_eq_ok_iff.mp hFinish
      cases hSame
      simp [PlacedInstr.branches, Pending.exits, exitAddress?,
        target?_of_shortOffset hSource hLabels hDistance]
  | tableSwitch low targets default =>
      obtain ⟨distance, hDistance, hRest⟩ := bind_eq_ok_iff.mp hFinish
      obtain ⟨offsets, hOffsets, hSame⟩ := bind_eq_ok_iff.mp hRest
      cases hSame
      apply switch_of_offsets hSource hLabels hDistance
      rw [Instr.tableCases, List.forall₂_map_left_iff, List.forall₂_map_right_iff]
      apply (forall₂_zipIdx (mapM_eq_ok_iff.mp hOffsets) 0).imp
      rintro ⟨l, i⟩ ⟨offset, j⟩ ⟨hOffset, rfl⟩
      exact ⟨rfl, hOffset⟩
  | lookupSwitch pairs default =>
      obtain ⟨distance, hDistance, hRest⟩ := bind_eq_ok_iff.mp hFinish
      obtain ⟨cases, hCases, hSame⟩ := bind_eq_ok_iff.mp hRest
      cases hSame
      apply switch_of_offsets hSource hLabels hDistance
      apply (mapM_eq_ok_iff.mp hCases).imp
      rintro ⟨key, l⟩ x hCase
      obtain ⟨offset, hOffset, hSame⟩ := bind_eq_ok_iff.mp hCase
      cases hSame
      exact ⟨rfl, hOffset⟩

end Finish

/-- A branch never becomes a return, so that control leaves it by its exits
only. -/
theorem isReturn_finish {p : Pending} {instr : Instr} (hBranching : ∀ i, p ≠ .ready i)
    (hFinish : b.finish source p = .ok instr) : instr.isReturn = false := by
  cases p with
  | ready i => exact False.elim (hBranching i rfl)
  | branch | goto =>
      obtain ⟨distance, -, hSame⟩ := bind_eq_ok_iff.mp hFinish
      cases hSame
      rfl
  | tableSwitch | lookupSwitch =>
      obtain ⟨distance, -, hRest⟩ := bind_eq_ok_iff.mp hFinish
      obtain ⟨offsets, -, hSame⟩ := bind_eq_ok_iff.mp hRest
      cases hSame
      rfl

/-- A branch already has the size of what it becomes. This is why addresses
are known before the offsets that depend on them. -/
theorem sizeAt_finish {p : Pending} {instr : Instr} (hFinish : b.finish source p = .ok instr)
    (a : Address) : instr.sizeAt a = p.sizeAt a := by
  cases p with
  | ready i =>
      cases hFinish
      rfl
  | branch | goto =>
      obtain ⟨distance, -, hSame⟩ := bind_eq_ok_iff.mp hFinish
      cases hSame
      rfl
  | tableSwitch | lookupSwitch =>
      obtain ⟨distance, -, hRest⟩ := bind_eq_ok_iff.mp hFinish
      obtain ⟨offsets, hOffsets, hSame⟩ := bind_eq_ok_iff.mp hRest
      cases hSame
      simp [Pending.sizeAt, Instr.sizeAt, (mapM_eq_ok_iff.mp hOffsets).length_eq]

/-- What a finished instruction has to do with the one that was emitted: it
stands at its address, with labels replaced by distances. -/
def Finishes (b : CodeBuilder) (emitted : Address × Pending) (p : PlacedInstr) : Prop :=
  p.address = emitted.1 ∧ b.finish emitted.1 emitted.2 = .ok p.instr

theorem Finishes.next {emitted : Address × Pending} {p : PlacedInstr} (h : b.Finishes emitted p) :
    p.next = emitted.1.advance (emitted.2.sizeAt emitted.1) := by
  rw [PlacedInstr.next, PlacedInstr.size, h.1, sizeAt_finish h.2]

/-- What finished code consists of: every instruction finished in its place,
and every protected range with its labels resolved. -/
theorem of_build {code : Code} (h : b.build = .ok code) :
    List.Forall₂ b.Finishes b.pending.toList code.instrs ∧
      List.Forall₂ (fun range handler => b.finishRange range = .ok handler) b.ranges.toList
        code.handlers := by
  rw [build, bind_eq_ok_iff] at h
  obtain ⟨instrs, hInstrs, h⟩ := h
  obtain ⟨handlers, hHandlers, hSame⟩ := bind_eq_ok_iff.mp h
  cases hSame
  refine ⟨?_, mapM_eq_ok_iff.mp hHandlers⟩
  apply (mapM_eq_ok_iff.mp hInstrs).imp
  rintro ⟨a, pending⟩ p hp
  obtain ⟨instr, hInstr, hSame⟩ := bind_eq_ok_iff.mp hp
  cases hSame
  exact ⟨rfl, hInstr⟩

/-- Finishing moves no instruction. The addresses of the code are
those where the builder was. -/
theorem addresses_of_finishes {emitted : List (Address × Pending)} {instrs : List PlacedInstr}
    (h : List.Forall₂ b.Finishes emitted instrs) :
    instrs.map PlacedInstr.address = emitted.map Prod.fst := by
  induction h with
  | nil => rfl
  | cons hFirst hRest ih => rw [List.map_cons, List.map_cons, ih, hFirst.1]

/-- Finished instructions are as contiguous as those that were emitted. -/
theorem contiguous_of_finishes {start stop : Address} {emitted : List (Address × Pending)}
    {instrs : List PlacedInstr} (hEmitted : Contiguous .emitted start emitted stop)
    (h : List.Forall₂ b.Finishes emitted instrs) : Contiguous .finished start instrs stop :=
  hEmitted.of_same_places (h.imp fun _ _ hFinishes => ⟨hFinishes.1, hFinishes.next⟩)

/-- A request for a branch or a switch never fails, and only emits it. Its
labels are looked at when the code is finished. -/
theorem step_branching (b : CodeBuilder) {op : CodeOp} {p : Pending} (h : op.branching? = some p) :
    (step op b).2 = b.emit p := by
  cases op with
  | branch | goto | tableSwitch | lookupSwitch =>
      cases h
      rfl
  | _ => cases h

/-- Where an exit leads after some requests: to the place of its label, if
an instruction was emitted there, or to the instruction behind. A label at
the very end of the code leads nowhere. -/
inductive Leads (b : CodeBuilder) (ops : List CodeOp) (behind : Option Address) :
    Branch × Option Label → Branch × Option Address → Prop where
  | label {kind : Branch} {l : Label} {before : List CodeOp} (placed : b.Places ops l before)
      (followed : (b.run before).pending.size < (b.run ops).pending.size) :
      Leads b ops behind (kind, some l) (kind, some (b.run before).next)
  | next {kind : Branch} {a : Address} (found : behind = some a) :
      Leads b ops behind (kind, none) (kind, some a)

/-- An entry of the exception table has the places of the labels of a
range. -/
structure Guards (b : CodeBuilder) (ops : List CodeOp) (range : ProtectedRange)
    (entry : ExceptionHandler) : Prop where
  start : b.PlacedAt ops range.start entry.start
  stop : b.PlacedAt ops range.stop entry.stop
  handler : b.PlacedAt ops range.handler entry.handler
  catchType : entry.catchType = range.catchType

section Build

variable {pool : ConstantPool} {ops before after : List CodeOp} {code : Code}

/-- A new builder has no labels, so that all places come from the
requests. -/
theorem resolve_run_new {l : Label} {a : Address} :
    (run { pool } ops).resolve l = .ok a ↔ PlacedAt { pool } ops l a := by
  have hNew : ¬ resolve { pool } l = .ok a := by
    simp [resolve_eq_ok_iff]
  rw [run_resolve, or_iff_right hNew]

/-- A new builder has no instructions, so that all of them come from the
requests. -/
theorem pending_run_new : (run { pool } ops).pending.toList = emissions { pool } ops := by
  rw [run_pending]
  rfl

/-- The number of instructions so far is the position that the next one
gets. -/
theorem length_emissions_new :
    (emissions { pool } ops).length = (run { pool } ops).pending.size := by
  rw [← pending_run_new, Array.length_toList]

/-- An instruction is found at the position that it got when it was
emitted. -/
theorem getElem?_emissions {op : CodeOp} {emitted : Pending} (hOps : ops = before ++ op :: after)
    (hEmitted : op.emission? (run { pool } before).pool = some emitted) :
    (emissions { pool } ops)[(run { pool } before).pending.size]? =
      some ((run { pool } before).next, emitted) := by
  rw [hOps, emissions_around hEmitted, ← length_emissions_new,
    List.getElem?_append_right (Nat.le_refl _), Nat.sub_self]
  rfl

/-- Finished code consists of what the requests emitted, in the same
order. -/
theorem finishes_emissions (hBuilt : (run { pool } ops).build = .ok code) :
    List.Forall₂ (run { pool } ops).Finishes (emissions { pool } ops) code.instrs := by
  rw [← pending_run_new]
  exact (of_build hBuilt).1

theorem guards_of_finishRange {range : ProtectedRange} {entry : ExceptionHandler}
    (h : (run { pool } ops).finishRange range = .ok entry) : Guards { pool } ops range entry := by
  obtain ⟨start, hStart, h⟩ := bind_eq_ok_iff.mp h
  obtain ⟨stop, hStop, h⟩ := bind_eq_ok_iff.mp h
  obtain ⟨handler, hHandler, hSame⟩ := bind_eq_ok_iff.mp h
  cases hSame
  exact ⟨resolve_run_new.mp hStart, resolve_run_new.mp hStop, resolve_run_new.mp hHandler, rfl⟩

theorem next_le_of_split (hOps : ops = before ++ after) :
    (run { pool } before).next ≤ (run { pool } ops).next := by
  rw [hOps, run_append]
  exact next_le_run _ after

/-- No label is placed behind the end of the code. -/
theorem placedAt_le {l : Label} {a : Address} (h : PlacedAt { pool } ops l a) :
    a ≤ (run { pool } ops).next := by
  obtain ⟨before, ⟨after, hOps, -⟩, rfl⟩ := h
  exact next_le_of_split hOps

/-- Finished code starts at the entry and has no gaps. -/
theorem contiguous_build (hBuilt : (run { pool } ops).build = .ok code) :
    Contiguous .finished .entry code.instrs (run { pool } ops).next :=
  contiguous_of_finishes (run_contiguous { pool } ops) (finishes_emissions hBuilt)

/-- Finished code is as long as the builder went, whether it has
instructions or not. -/
theorem length_build (hBuilt : (run { pool } ops).build = .ok code) :
    code.length = (run { pool } ops).next.offset := by
  have hContiguous := contiguous_build hBuilt
  generalize (run { pool } ops).next = stop at hContiguous
  unfold Code.length
  cases hLast : code.instrs.getLast? with
  | some last => exact congrArg Address.offset (hContiguous.next_getLast hLast)
  | none =>
      rw [List.getLast?_eq_none_iff.mp hLast] at hContiguous
      cases hContiguous
      rfl

section Branching

variable {op : CodeOp} {emitted : Pending} (hOps : ops = before ++ op :: after)
  (hOp : op.branching? = some emitted)

include hOps hOp

/-- The address behind a branch in the list of addresses is that of what is
emitted first after it. -/
theorem getElem?_behind :
    ((emissions { pool } ops).map Prod.fst)[(run { pool } before).pending.size + 1]? =
      (((run { pool } before).emit emitted).emissions after).head?.map Prod.fst := by
  rw [hOps, emissions_around (CodeOp.emission?_of_branching? hOp), step_branching _ hOp,
    ← length_emissions_new, List.getElem?_map, List.getElem?_append_right (Nat.le_succ _),
    Nat.succ_sub (Nat.le_refl _), Nat.sub_self, List.head?_eq_getElem?]
  rfl

/-- The successors of a finished branch are its exits, as far as they can be
found. -/
theorem successors_of_finishes (code : Code) {p : PlacedInstr}
    (hFinishes : (run { pool } ops).Finishes ((run { pool } before).next, emitted) p)
    (hLength : (run { pool } ops).next.offset < Address.signedLimit) :
    code.successors p = emitted.exits.mapM fun exit =>
      code.checkTarget p.address (exit.1, (run { pool } ops).exitAddress? p.next exit.2) := by
  have hBranching : ∀ i, emitted ≠ .ready i := by
    rintro i rfl
    cases op <;> cases hOp
  have hSource : (run { pool } before).next.offset < Address.signedLimit :=
    Nat.lt_of_le_of_lt (next_le_of_split hOps) hLength
  have hLabels : ∀ l a, (run { pool } ops).resolve l = .ok a → a.offset < Address.signedLimit := by
    intro l a hResolved
    exact Nat.lt_of_le_of_lt (placedAt_le (resolve_run_new.mp hResolved)) hLength
  obtain ⟨address, instr⟩ := p
  obtain ⟨rfl, hFinish⟩ := hFinishes
  have hReturn : instr.isReturn = false := isReturn_finish hBranching hFinish
  rw [Code.successors, hReturn, branches_finish hSource hLabels hBranching hFinish, List.mapM_map]
  rfl

/-- The branch that a request emitted, in the finished code. -/
theorem exists_finishes (hBuilt : (run { pool } ops).build = .ok code) :
    ∃ p, code.instrs[(run { pool } before).pending.size]? = some p ∧
      (run { pool } ops).Finishes ((run { pool } before).next, emitted) p := by
  apply getElem?_of_forall₂ (finishes_emissions hBuilt)
  exact getElem?_emissions hOps (CodeOp.emission?_of_branching? hOp)

end Branching

variable (hSizes : ∀ opcode, .instr (.other opcode 0) ∉ ops)

include hSizes

/-- At a moment of a run, an instruction starts where the builder is just if
one is emitted later. Without sizes, one that was emitted before could start
there as well. -/
theorem next_mem_emissions_iff (pool : ConstantPool) (hOps : ops = before ++ after) :
    (run { pool } before).next ∈ (emissions { pool } ops).map Prod.fst ↔
      (run { pool } before).emissions after ≠ [] := by
  subst hOps
  have hBefore : ∀ opcode, .instr (.other opcode 0) ∉ before := fun opcode hMem =>
    hSizes opcode (List.mem_append_left after hMem)
  rw [emissions_append]
  exact (run_contiguous { pool } before).mem_middle_iff (run_contiguous _ after)
    fun _ => size_emissions { pool } hBefore

/-- An instruction stands where the builder was at some moment just if one
was emitted later. -/
theorem next_mem_addresses_iff (hBuilt : (run { pool } ops).build = .ok code)
    (hOps : ops = before ++ after) :
    (run { pool } before).next ∈ code.addresses ↔
      (run { pool } before).pending.size < (run { pool } ops).pending.size := by
  rw [Code.addresses, addresses_of_finishes (finishes_emissions hBuilt),
    next_mem_emissions_iff hSizes pool hOps, ← length_emissions_new, ← length_emissions_new, hOps,
    emissions_append, List.length_append, ← List.length_pos_iff]
  omega

/-- An exit to a label leads to the place of the label if an instruction of
the finished code stands there, and nowhere otherwise. -/
theorem leads_label_iff (hBuilt : (run { pool } ops).build = .ok code) {behind : Option Address}
    {kind : Branch} {l : Label} {t : Branch × Option Address} :
    Leads { pool } ops behind (kind, some l) t ↔
      ∃ a, (run { pool } ops).resolve l = .ok a ∧ a ∈ code.addresses ∧ t = (kind, some a) := by
  constructor
  · intro hLeads
    cases hLeads with
    | label placed followed =>
        have hResolved := resolve_run_new.mpr ⟨_, placed, rfl⟩
        obtain ⟨after, hPlaced, -⟩ := placed
        exact ⟨_, hResolved, (next_mem_addresses_iff hSizes hBuilt hPlaced).mpr followed, rfl⟩
  · rintro ⟨a, hResolved, hMem, rfl⟩
    obtain ⟨placing, hPlaces, rfl⟩ := resolve_run_new.mp hResolved
    have ⟨rest, hPlaced, _⟩ := hPlaces
    exact .label hPlaces ((next_mem_addresses_iff hSizes hBuilt hPlaced).mp hMem)

variable {op : CodeOp} {emitted : Pending} (hOps : ops = before ++ op :: after)
  (hOp : op.branching? = some emitted) (hBuilt : (run { pool } ops).build = .ok code)

include hOps hOp hBuilt

/-- The instruction behind a branch stands where the branch ends. There is
one just if something was emitted after the branch. -/
theorem address_behind_iff {a : Address} :
    code.addresses[(run { pool } before).pending.size + 1]? = some a ↔
      a = ((run { pool } before).emit emitted).next ∧ a ∈ code.addresses := by
  have hStep : run { pool } (before ++ [op]) = (run { pool } before).emit emitted := by
    rw [run_append]
    exact step_branching _ hOp
  have hMiddle := next_mem_emissions_iff hSizes pool (hOps.trans (List.append_cons before op after))
  rw [hStep] at hMiddle
  rw [Code.addresses, addresses_of_finishes (finishes_emissions hBuilt),
    getElem?_behind hOps hOp]
  have hRest := run_contiguous ((run { pool } before).emit emitted) after
  cases hLater : ((run { pool } before).emit emitted).emissions after with
  | nil =>
      rw [hLater] at hMiddle
      constructor
      · intro hBehind
        cases hBehind
      · rintro ⟨rfl, hMem⟩
        exact False.elim (hMiddle.mp hMem rfl)
  | cons entry rest =>
      rw [hLater] at hMiddle hRest
      have hEntry : entry.1 = ((run { pool } before).emit emitted).next := hRest.first_head rfl
      rw [List.head?_cons, Option.map_some, hEntry, Option.some.injEq]
      constructor
      · rintro rfl
        exact ⟨rfl, hMiddle.mpr (List.cons_ne_nil entry rest)⟩
      · rintro ⟨rfl, -⟩
        rfl

/-- Checking a target of finished code is following the exit through the
requests. -/
theorem leads_iff {p : PlacedInstr}
    (hFinishes : (run { pool } ops).Finishes ((run { pool } before).next, emitted) p)
    {exit : Branch × Option Label} {t : Branch × Option Address} :
    code.checkTarget p.address (exit.1, (run { pool } ops).exitAddress? p.next exit.2) = .ok t ↔
      Leads { pool } ops code.addresses[(run { pool } before).pending.size + 1]? exit t := by
  rw [Code.checkTarget_eq_ok_iff]
  obtain ⟨kind, label⟩ := exit
  cases label with
  | some l =>
      rw [leads_label_iff hSizes hBuilt, exitAddress?]
      cases (run { pool } ops).resolve l with
      | error e => simp [Except.toOption]
      | ok a => simp [Except.toOption]
  | none =>
      have hBehind := fun a => address_behind_iff hSizes hOps hOp hBuilt (a := a)
      rw [exitAddress?, hFinishes.next]
      constructor
      · rintro ⟨a, hNext, hMem, rfl⟩
        cases hNext
        exact .next ((hBehind _).mpr ⟨rfl, hMem⟩)
      · intro hLeads
        cases hLeads with
        | next found =>
            obtain ⟨rfl, hMem⟩ := (hBehind _).mp found
            exact ⟨_, rfl, hMem, rfl⟩

end Build

/-- Finished code leads from every branch to where its labels were placed,
in order, and to the instruction behind it, unless no instruction stands at
one of these places. The entries of its exception table have the places of
their labels. -/
theorem build_follows_labels (pool : ConstantPool) {ops : List CodeOp} {code : Code}
    (hBuilt : (run { pool } ops).build = .ok code)
    (hSizes : ∀ opcode, .instr (.other opcode 0) ∉ ops)
    (hLength : code.length < Address.signedLimit) :
    (∀ before op after emitted, ops = before ++ op :: after → op.branching? = some emitted →
      ∃ p, code.instrs[(run { pool } before).pending.size]? = some p ∧
        p.address = (run { pool } before).next ∧
        (∀ targets, code.successors p = .ok targets ↔
          List.Forall₂ (Leads { pool } ops
            code.addresses[(run { pool } before).pending.size + 1]?) emitted.exits targets) ∧
        ((∃ exit ∈ emitted.exits, ∀ target, ¬ Leads { pool } ops
            code.addresses[(run { pool } before).pending.size + 1]? exit target) →
          code.successors p = .error (.branchTargetNotFound p.address))) ∧
    List.Forall₂ (Guards { pool } ops) (ops.filterMap CodeOp.range?) code.handlers := by
  constructor
  · intro before op after emitted hOps hOp
    obtain ⟨p, hPlaced, hFinishes⟩ := exists_finishes hOps hOp hBuilt
    rw [length_build hBuilt] at hLength
    have hSuccessors := successors_of_finishes hOps hOp code hFinishes hLength
    have hLeads (targets : List (Branch × Option Address)) : code.successors p = .ok targets ↔
        List.Forall₂ (Leads { pool } ops
          code.addresses[(run { pool } before).pending.size + 1]?) emitted.exits targets := by
      rw [hSuccessors, mapM_eq_ok_iff]
      simp only [leads_iff hSizes hOps hOp hBuilt hFinishes]
    refine ⟨p, hPlaced, hFinishes.1, hLeads, ?_⟩
    rintro ⟨exit, hExit, hNowhere⟩
    cases hOutcome : code.successors p with
    | ok targets =>
        obtain ⟨i, hi⟩ := List.getElem?_of_mem hExit
        obtain ⟨target, -, hTarget⟩ := getElem?_of_forall₂ ((hLeads targets).mp hOutcome) hi
        exact False.elim (hNowhere target hTarget)
    | error e =>
        rw [hSuccessors] at hOutcome
        obtain ⟨failing, -, hError⟩ := exists_of_mapM_error hOutcome
        rw [Code.error_of_checkTarget hError]
  · have hRanges := run_ranges { pool } ops
    rw [List.nil_append] at hRanges
    rw [← hRanges]
    apply (of_build hBuilt).2.imp
    intro range entry hEntry
    exact guards_of_finishRange hEntry

end CodeBuilder

/-- A switch in front of its labels and behind them, and a jump to the end
of the code. -/
def switchRequests : List CodeOp :=
  [.newLabel, .newLabel, .newLabel, .placeLabel ⟨0⟩, .instr (.other 26 1),
   .tableSwitch 7 [⟨1⟩, ⟨0⟩] ⟨1⟩, .goto ⟨2⟩, .placeLabel ⟨1⟩, .instr (.ret .void),
   .placeLabel ⟨2⟩, .tryCatch ⟨0⟩ ⟨2⟩ ⟨1⟩ none]

def switchCode : Code where
  maxStack := 0
  maxLocals := 0
  instrs := [⟨⟨0⟩, .other 26 1⟩, ⟨⟨1⟩, .tableSwitch 26 7 [26, -1]⟩, ⟨⟨24⟩, .goto 4⟩,
    ⟨⟨27⟩, .ret .void⟩]
  handlers := [⟨⟨0⟩, ⟨28⟩, ⟨27⟩, none⟩]
  lines := []

theorem switchCode_built :
    (CodeBuilder.run { pool := {} } switchRequests).build = .ok switchCode := rfl

/-- The first label is placed in front of the code, the second in front of
its last instruction. -/
theorem switchRequests_places :
    CodeBuilder.Places { pool := {} } switchRequests ⟨0⟩ (switchRequests.take 3) ∧
      CodeBuilder.Places { pool := {} } switchRequests ⟨1⟩ (switchRequests.take 7) :=
  ⟨⟨_, rfl, rfl⟩, ⟨_, rfl, rfl⟩⟩

theorem switchCode_follows_labels :
    (∀ opcode, .instr (.other opcode 0) ∉ switchRequests) ∧
      switchCode.length < Address.signedLimit ∧
      switchCode.successors ⟨⟨1⟩, .tableSwitch 26 7 [26, -1]⟩ =
        .ok [(.switchDefault, some ⟨27⟩), (.switchCase 7, some ⟨27⟩), (.switchCase 8, some ⟨0⟩)] ∧
      switchCode.successors ⟨⟨24⟩, .goto 4⟩ = .error (.branchTargetNotFound ⟨24⟩) ∧
      List.Forall₂ (CodeBuilder.Guards { pool := {} } switchRequests) [⟨⟨0⟩, ⟨2⟩, ⟨1⟩, none⟩]
        switchCode.handlers := by
  have hSizes : ∀ opcode, .instr (.other opcode 0) ∉ switchRequests := by
    intro opcode
    simp [switchRequests]
  have hLength : switchCode.length < Address.signedLimit := by decide
  obtain ⟨hBranches, hHandlers⟩ :=
    CodeBuilder.build_follows_labels {} switchCode_built hSizes hLength
  obtain ⟨hFirst, hSecond⟩ := switchRequests_places
  refine ⟨hSizes, hLength, ?_, ?_, hHandlers⟩
  · obtain ⟨p, hPlaced, -, hTargets, -⟩ := hBranches (switchRequests.take 5)
      (.tableSwitch 7 [⟨1⟩, ⟨0⟩] ⟨1⟩) (switchRequests.drop 6) _ rfl rfl
    cases (show p = ⟨⟨1⟩, .tableSwitch 26 7 [26, -1]⟩ from (Option.some.inj hPlaced).symm)
    apply (hTargets _).mpr
    exact .cons (.label hSecond (by decide)) (.cons (.label hSecond (by decide))
      (.cons (.label hFirst (by decide)) .nil))
  · obtain ⟨p, hPlaced, -, -, hNowhere⟩ := hBranches (switchRequests.take 6) (.goto ⟨2⟩)
      (switchRequests.drop 7) _ rfl rfl
    cases (show p = ⟨⟨24⟩, .goto 4⟩ from (Option.some.inj hPlaced).symm)
    apply hNowhere
    refine ⟨(.jump, some ⟨2⟩), List.mem_singleton.mpr rfl, ?_⟩
    intro target hLeads
    obtain ⟨a, hResolved, hMem, -⟩ :=
      (CodeBuilder.leads_label_iff hSizes switchCode_built).mp hLeads
    cases hResolved
    revert hMem
    decide

end JvmCalls
