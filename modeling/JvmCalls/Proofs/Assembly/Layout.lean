import Mathlib.Data.List.Chain
import Mathlib.Data.List.Forall2
import JvmCalls.Assembly.Code

/-! What requests do to code under construction. One specification tells
what a request does to all parts of the builder, and all that is known about
runs follows from it. Instructions are emitted one behind the other, so that
the next instruction stands where the builder is. A label keeps the
address where the builder was when the label was placed. -/
namespace JvmCalls

/-- How items lie in code: where an item starts, and where what is behind it
starts. An item may be empty, but it never ends before it starts. -/
structure Placing (α : Type) where
  first : α → Address
  next : α → Address
  le : ∀ x, first x ≤ next x

namespace Placing

/-- Emitted instructions, with the room that they are given. -/
def emitted : Placing (Address × Pending) where
  first := Prod.fst
  next entry := entry.1.advance (entry.2.sizeAt entry.1)
  le _ := Nat.le_add_right _ _

/-- Finished instructions, with the room that they fill. -/
def finished : Placing PlacedInstr where
  first := PlacedInstr.address
  next := PlacedInstr.next
  le _ := Nat.le_add_right _ _

end Placing

/-- Items that stand one behind the other from one address to another,
without a gap between them. They may be empty. -/
inductive Contiguous {α : Type} (π : Placing α) : Address → List α → Address → Prop where
  | nil {a : Address} : Contiguous π a [] a
  | cons {start stop : Address} {x : α} {rest : List α} (first : π.first x = start)
      (tail : Contiguous π (π.next x) rest stop) : Contiguous π start (x :: rest) stop

namespace Contiguous

variable {α β : Type} {π : Placing α} {ρ : Placing β} {start middle stop : Address}
  {l k : List α} {x : α}

/-- Pieces that meet at an address make one piece. Code is built in this
way, one request after the other. -/
theorem append (hl : Contiguous π start l middle) (hk : Contiguous π middle k stop) :
    Contiguous π start (l ++ k) stop := by
  induction hl with
  | nil => exact hk
  | cons first tail ih => exact .cons first (ih hk)

theorem le (h : Contiguous π start l stop) : start ≤ stop := by
  induction h with
  | nil => exact Nat.le_refl _
  | @cons start stop x rest first tail ih =>
      subst first
      exact Nat.le_trans (π.le x) ih

/-- No item stands before the start of the piece, as addresses only grow
along it. -/
theorem start_le (h : Contiguous π start l stop) (hx : x ∈ l) : start ≤ π.first x := by
  induction h with
  | nil => cases hx
  | @cons start stop y rest first tail ih =>
      subst first
      rcases List.mem_cons.mp hx with rfl | hLater
      · exact Nat.le_refl _
      · exact Nat.le_trans (π.le y) (ih hLater)

/-- No item reaches behind the end of the piece. As empty items are allowed,
the last of them may stand at the end itself. -/
theorem next_le (h : Contiguous π start l stop) (hx : x ∈ l) : π.next x ≤ stop := by
  induction h with
  | nil => cases hx
  | cons first tail ih =>
      rcases List.mem_cons.mp hx with rfl | hLater
      · exact tail.le
      · exact ih hLater

theorem first_le (h : Contiguous π start l stop) (hx : x ∈ l) : π.first x ≤ stop :=
  Nat.le_trans (π.le x) (h.next_le hx)

/-- The first item stands where the piece starts. -/
theorem first_head (h : Contiguous π start l stop) (hHead : l.head? = some x) :
    π.first x = start := by
  cases h with
  | nil => cases hHead
  | cons first tail =>
      cases hHead
      exact first

/-- The last item ends where the piece ends, so that the length of code can
be read off its last instruction. -/
theorem next_getLast (h : Contiguous π start l stop) (hLast : l.getLast? = some x) :
    π.next x = stop := by
  induction h with
  | nil => cases hLast
  | @cons start stop y rest first tail ih =>
      cases rest with
      | nil =>
          cases hLast
          cases tail
          rfl
      | cons z rest => exact ih hLast

/-- Each item starts where the one before it ends. There are no gaps, and
nothing overlaps. -/
theorem isChain (h : Contiguous π start l stop) : l.IsChain fun x y => π.first y = π.next x := by
  induction h with
  | nil => exact .nil
  | @cons start stop x rest first tail ih =>
      cases rest with
      | nil => exact .singleton x
      | cons y rest => exact .cons_cons (tail.first_head rfl) ih

/-- An item with others behind it moves them on, unless it is empty. The
last item may be empty. -/
theorem pairwise (h : Contiguous π start l stop)
    (hSizes : ∀ x ∈ l.dropLast, π.first x < π.next x) :
    l.Pairwise fun x y => π.first x < π.first y := by
  induction h with
  | nil => exact .nil
  | @cons start stop x rest first tail ih =>
      refine .cons ?_ (ih fun y hy => hSizes y ?_)
      · intro y hy
        have hSize : π.first x < π.next x := by
          apply hSizes
          rw [List.dropLast_cons_of_ne_nil (List.ne_nil_of_mem hy)]
          exact List.mem_cons_self
        exact Nat.lt_of_lt_of_le hSize (tail.start_le hy)
      · have hRest : y ∈ rest := (List.dropLast_sublist rest).subset hy
        rw [List.dropLast_cons_of_ne_nil (List.ne_nil_of_mem hRest)]
        exact List.mem_cons_of_mem x hy

/-- An item starts between two pieces just if the second piece has one. If
an item of the first piece was empty, it could start there as well. -/
theorem mem_middle_iff (hl : Contiguous π start l middle) (hk : Contiguous π middle k stop)
    (hSizes : ∀ x ∈ l, π.first x < π.next x) : middle ∈ (l ++ k).map π.first ↔ k ≠ [] := by
  cases hk with
  | nil =>
      constructor
      · intro hMem
        rw [List.append_nil] at hMem
        obtain ⟨x, hx, rfl⟩ := List.mem_map.mp hMem
        exact False.elim (Nat.lt_irrefl _ (Nat.lt_of_lt_of_le (hSizes x hx) (hl.next_le hx)))
      · intro hEmpty
        exact False.elim (hEmpty rfl)
  | cons first tail => simp [first]

/-- Other items in the same places are contiguous too. It carries over what
is known of emitted instructions to the finished ones, which fill the same
room. -/
theorem of_same_places {k : List β} (h : Contiguous π start l stop)
    (hSame : List.Forall₂ (fun x y => ρ.first y = π.first x ∧ ρ.next y = π.next x) l k) :
    Contiguous ρ start k stop := by
  induction h generalizing k with
  | nil =>
      cases hSame
      exact .nil
  | cons first tail ih =>
      cases hSame with
      | cons hHead hRest => exact .cons (hHead.1.trans first) (hHead.2 ▸ ih hRest)

end Contiguous

/-- Only an instruction that was given the length zero is empty, wherever it
stands. -/
theorem Instr.sizeAt_pos {i : Instr} (h : ∀ opcode, i ≠ .other opcode 0) (a : Address) :
    0 < i.sizeAt a := by
  cases i with
  | other opcode length =>
      have hLength : length ≠ 0 := fun hZero => h opcode (by rw [hZero])
      exact Nat.pos_of_ne_zero fun hZero => hLength (UInt8.toNat_inj.mp hZero)
  | _ =>
      simp only [sizeAt]
      omega

/-- A call with the index of its constant, if the pool takes the
constant. -/
def Pending.ofConstant? (pool : ConstantPool) (push : PoolM PoolIndex) (call : PoolIndex → Instr) :
    Option Pending :=
  (push pool).1.toOption.map fun index => .ready (call index)

namespace CodeOp

/-- The protected range that a request declares. -/
def range? : CodeOp → Option ProtectedRange
  | tryCatch start stop handler catchType => some ⟨start, stop, handler, catchType⟩
  | _ => none

/-- The source line that a request notes. -/
def line? : CodeOp → Option UInt16
  | line number => some number
  | _ => none

/-- The branch or switch that a request emits. -/
def branching? : CodeOp → Option Pending
  | branch comparison operand target => some (.branch comparison operand target)
  | goto target => some (.goto target)
  | tableSwitch low targets default => some (.tableSwitch low targets default)
  | lookupSwitch pairs default => some (.lookupSwitch pairs default)
  | _ => none

/-- The instruction that a request emits where the class has this pool. A
call is emitted only if the pool takes its constant, and an interface call
only if its arguments can be counted in one byte. -/
def emission? (pool : ConstantPool) : CodeOp → Option Pending
  | instr i => some (.ready i)
  | invokeStatic owner name descriptor =>
    Pending.ofConstant? pool (ConstantPool.pushMethodRef owner name descriptor false) .invokeStatic
  | invokeSpecial owner name descriptor =>
    Pending.ofConstant? pool (ConstantPool.pushMethodRef owner name descriptor false) .invokeSpecial
  | invokeVirtual owner name descriptor =>
    Pending.ofConstant? pool (ConstantPool.pushMethodRef owner name descriptor false) .invokeVirtual
  | invokeInterface owner name descriptor =>
    match MethodDescriptor.ofString descriptor with
    | .ok parsed =>
      if parsed.parameterSlots + 1 < 256 then
        Pending.ofConstant? pool (ConstantPool.pushMethodRef owner name descriptor true)
          fun index => .invokeInterface index (parsed.parameterSlots + 1).toUInt8
      else none
    | .error _ => none
  | invokeDynamic bootstrap name descriptor =>
    Pending.ofConstant? pool (ConstantPool.pushInvokeDynamic bootstrap name descriptor)
      .invokeDynamic
  | op => op.branching?

/-- What a request may emit: a branch or a switch, an instruction that is
ready, or nothing. Only an instruction that was asked for as it is may be
empty, and only branches and switches have labels. -/
inductive Emission (op : CodeOp) : Option Pending → Prop where
  | nothing (unlabelled : op.branching? = none) : Emission op none
  | branching {p : Pending} (labelled : op.branching? = some p) (size : ∀ a, 0 < p.sizeAt a) :
      Emission op (some p)
  | ready {i : Instr} (unlabelled : op.branching? = none)
      (size : ∀ a, op = .instr i ∨ 0 < i.sizeAt a) : Emission op (some (.ready i))

variable {op : CodeOp} {pool : ConstantPool} {p : Pending}

/-- A call is ready once it has the index of its constant, and is never
empty. -/
theorem emission_ofConstant? (push : PoolM PoolIndex) {call : PoolIndex → Instr}
    (hUnlabelled : op.branching? = none) (hSize : ∀ index a, 0 < (call index).sizeAt a) :
    op.Emission (Pending.ofConstant? pool push call) := by
  unfold Pending.ofConstant?
  cases (push pool).1.toOption with
  | none => exact .nothing hUnlabelled
  | some index => exact .ready hUnlabelled fun a => .inr (hSize index a)

/-- Whatever the pool is, a request emits one of these. What depends on the
pool is only whether a call is emitted, and with which constant. -/
theorem emission?_emission (op : CodeOp) (pool : ConstantPool) :
    op.Emission (op.emission? pool) := by
  cases op with
  | instr i => exact .ready rfl fun _ => .inl rfl
  | invokeStatic | invokeSpecial | invokeVirtual | invokeDynamic =>
      exact emission_ofConstant? _ rfl fun _ _ => Nat.succ_pos _
  | invokeInterface owner name descriptor =>
      simp only [emission?]
      split
      · split
        · exact emission_ofConstant? _ rfl fun _ _ => Nat.succ_pos _
        · exact .nothing rfl
      · exact .nothing rfl
  | branch | goto => exact .branching rfl fun _ => Nat.succ_pos _
  | tableSwitch | lookupSwitch =>
      refine .branching rfl fun a => ?_
      simp only [Pending.sizeAt, Instr.sizeAt]
      omega
  | newLabel | placeLabel | line | tryCatch | maxStack | maxLocals => exact .nothing rfl

/-- No request both notes a line and emits an instruction. -/
theorem line?_of_emission? (h : op.emission? pool = some p) : op.line? = none := by
  cases op with
  | line => cases h
  | _ => rfl

/-- A branch or a switch is emitted whatever the pool is. -/
theorem emission?_of_branching? (h : op.branching? = some p) : op.emission? pool = some p := by
  have hEmission := emission?_emission op pool
  generalize op.emission? pool = emission? at hEmission
  cases hEmission with
  | nothing unlabelled => cases unlabelled.symm.trans h
  | branching labelled size => exact labelled.symm.trans h
  | ready unlabelled size => cases unlabelled.symm.trans h

/-- What a request emits moves the builder on, unless the request is for an
instruction without length. -/
theorem sizeAt_pos_of_emission? (h : op.emission? pool = some p)
    (hSize : ∀ opcode, op ≠ .instr (.other opcode 0)) (a : Address) : 0 < p.sizeAt a := by
  have hEmission := emission?_emission op pool
  rw [h] at hEmission
  cases hEmission with
  | branching labelled size => exact size a
  | @ready i unlabelled size =>
      rcases size a with hGiven | hPositive
      · apply Instr.sizeAt_pos
        rintro opcode rfl
        exact hSize opcode hGiven
      · exact hPositive

end CodeOp

namespace CodeBuilder

/-- The builder after some requests. It goes on after a request that
fails. -/
def run (b : CodeBuilder) (ops : List CodeOp) : CodeBuilder :=
  ops.foldl (fun b op => (step op b).2) b

theorem run_cons (b : CodeBuilder) (op : CodeOp) (ops : List CodeOp) :
    b.run (op :: ops) = run (step op b).2 ops := rfl

theorem run_append (b : CodeBuilder) (l k : List CodeOp) : b.run (l ++ k) = (b.run l).run k :=
  List.foldl_append

/-- What a request does to the builder, whether it succeeds or not. It adds
what it emits, declares and notes at the ends of their lists, and the
builder moves behind the instruction that was emitted. Only labels are ever
changed, and only by the requests for them. -/
structure Performs (b : CodeBuilder) (op : CodeOp) (b' : CodeBuilder) : Prop where
  pending : b'.pending.toList =
    b.pending.toList ++ (op.emission? b.pool).toList.map fun p => (b.next, p)
  next : b'.next = b.next.advance ((op.emission? b.pool).elim 0 fun p => p.sizeAt b.next)
  ranges : b'.ranges.toList = b.ranges.toList ++ op.range?.toList
  lines : b'.lines.toList = b.lines.toList ++ op.line?.toList.map fun number => ⟨b.next, number⟩
  labels : op ≠ .newLabel → (∀ l, op ≠ .placeLabel l) → b'.labels = b.labels

/-- What a request for a call does: nothing but to the pool if it fails, and
to emit the call otherwise. -/
inductive AddsCall (b : CodeBuilder) : Option Pending → CodeBuilder → Prop where
  | failed (pool : ConstantPool) : AddsCall b none { b with pool }
  | emitted (pool : ConstantPool) (p : Pending) : AddsCall b (some p) ({ b with pool }.emit p)

/-- A request for a call declares no range, notes no line and leaves labels
alone. -/
theorem AddsCall.performs {b b' : CodeBuilder} {op : CodeOp}
    (h : b.AddsCall (op.emission? b.pool) b') (hRange : op.range? = none)
    (hLine : op.line? = none) : b.Performs op b' := by
  generalize hEmission : op.emission? b.pool = emission? at h
  cases h with
  | failed pool =>
      constructor <;> simp [hEmission, hRange, hLine, Address.advance]
  | emitted pool p =>
      constructor <;> simp [hEmission, hRange, hLine, emit]

/-- A call is emitted if the pool takes its constant. If not, nothing is
emitted, but the pool may have grown. -/
theorem onPool_addsCall (b : CodeBuilder) (push : PoolM PoolIndex) (call : PoolIndex → Instr) :
    b.AddsCall (Pending.ofConstant? b.pool push call) ((do
      let index ← onPool push
      modify (·.emit (.ready (call index))) : Assembler Unit) b).2 := by
  simp only [onPool, bind, ExceptT.bind, ExceptT.mk, StateT.bind, Id, ExceptT.bindCont,
    Pending.ofConstant?]
  cases push b.pool with
  | mk result pool =>
      cases result with
      | ok index => exact .emitted pool (.ready (call index))
      | error e => exact .failed pool

/-- An interface call asks for its descriptor first, so that a descriptor
that cannot be used fails before the pool is changed. -/
theorem invokeInterface_eq (owner name descriptor : String) :
    invokeInterface owner name descriptor =
      match MethodDescriptor.ofString descriptor with
      | .ok parsed =>
        if parsed.parameterSlots + 1 < 256 then
          invoke owner name descriptor true fun index =>
            .invokeInterface index (parsed.parameterSlots + 1).toUInt8
        else throw (.invalidDescriptor descriptor)
      | .error e => throw e := by
  unfold invokeInterface
  cases MethodDescriptor.ofString descriptor with
  | ok parsed => rfl
  | error e => rfl

/-- An interface call fails without an instruction where its descriptor is
malformed or asks for too many arguments. Otherwise it is added as any other
call. -/
theorem invokeInterface_addsCall (b : CodeBuilder) (owner name descriptor : String) :
    b.AddsCall ((CodeOp.invokeInterface owner name descriptor).emission? b.pool)
      (invokeInterface owner name descriptor b).2 := by
  simp only [invokeInterface_eq, CodeOp.emission?]
  cases MethodDescriptor.ofString descriptor with
  | error e => exact .failed b.pool
  | ok parsed =>
      by_cases hSlots : parsed.parameterSlots + 1 < 256
      · simp only [if_pos hSlots]
        exact onPool_addsCall b _ _
      · simp only [if_neg hSlots]
        exact .failed b.pool

/-- A request that always emits its instruction needs no more of the
pool. -/
theorem performs_emit (b : CodeBuilder) {op : CodeOp} {p : Pending}
    (h : op.emission? b.pool = some p) (hRange : op.range? = none) : b.Performs op (b.emit p) := by
  have hAdds : b.AddsCall (op.emission? b.pool) (b.emit p) := h ▸ .emitted b.pool p
  exact hAdds.performs hRange (CodeOp.line?_of_emission? h)

/-- One case for each kind of request. All that follows about requests and
runs rests on this and looks into no request again, but for those of
labels. -/
theorem step_performs (b : CodeBuilder) (op : CodeOp) : b.Performs op (step op b).2 := by
  have hNil {α : Type} (l : List α) : l = l ++ [] := (List.append_nil l).symm
  cases op with
  | instr | branch | goto | tableSwitch | lookupSwitch => exact performs_emit b rfl rfl
  | invokeStatic | invokeSpecial | invokeVirtual | invokeDynamic =>
      exact (onPool_addsCall b _ _).performs rfl rfl
  | invokeInterface owner name descriptor =>
      exact (invokeInterface_addsCall b owner name descriptor).performs rfl rfl
  | placeLabel l =>
      simp only [step, placeLabel]
      split
      · exact ⟨hNil _, rfl, hNil _, hNil _, fun _ hOther => False.elim (hOther l rfl)⟩
      · exact ⟨hNil _, rfl, hNil _, hNil _, fun _ _ => rfl⟩
  | newLabel => exact ⟨hNil _, rfl, hNil _, hNil _, fun hOther => False.elim (hOther rfl)⟩
  | maxStack | maxLocals => exact ⟨hNil _, rfl, hNil _, hNil _, fun _ _ => rfl⟩
  | line => exact ⟨hNil _, rfl, hNil _, Array.toList_push, fun _ _ => rfl⟩
  | tryCatch => exact ⟨hNil _, rfl, Array.toList_push, hNil _, fun _ _ => rfl⟩

/-- The instructions that some requests emit, with their addresses. -/
def emissions (b : CodeBuilder) : List CodeOp → List (Address × Pending)
  | [] => []
  | op :: rest =>
    (op.emission? b.pool).toList.map (fun p => (b.next, p)) ++ emissions (step op b).2 rest

/-- The requests of a second part start from the builder that the first part
left. -/
theorem emissions_append (b : CodeBuilder) (l k : List CodeOp) :
    b.emissions (l ++ k) = b.emissions l ++ (b.run l).emissions k := by
  induction l generalizing b with
  | nil => rfl
  | cons op rest ih =>
      rw [List.cons_append, emissions, emissions, ih, List.append_assoc]
      rfl

/-- What is emitted around a request that emits an instruction. -/
theorem emissions_around {b : CodeBuilder} {before after : List CodeOp} {op : CodeOp} {p : Pending}
    (h : op.emission? (b.run before).pool = some p) :
    b.emissions (before ++ op :: after) = b.emissions before ++
      ((b.run before).next, p) :: (step op (b.run before)).2.emissions after := by
  rw [emissions_append, emissions, h]
  rfl

/-- A run keeps all instructions that were emitted before it and adds its
own behind them. -/
theorem run_pending (b : CodeBuilder) (ops : List CodeOp) :
    (b.run ops).pending.toList = b.pending.toList ++ b.emissions ops := by
  induction ops generalizing b with
  | nil => exact (List.append_nil _).symm
  | cons op rest ih =>
      rw [run_cons, ih, (step_performs b op).pending, emissions, List.append_assoc]

/-- A request leaves no gap: what it emits reaches from where the builder
was to where it is. -/
theorem step_contiguous (b : CodeBuilder) (op : CodeOp) :
    Contiguous .emitted b.next ((op.emission? b.pool).toList.map fun p => (b.next, p))
      (step op b).2.next := by
  rw [(step_performs b op).next]
  cases op.emission? b.pool with
  | none => exact .nil
  | some p => exact .cons rfl .nil

/-- What a run emits lies without gaps between where the builder was
and where it is. This is the step lemma, carried along the requests. -/
theorem run_contiguous (b : CodeBuilder) (ops : List CodeOp) :
    Contiguous .emitted b.next (b.emissions ops) (b.run ops).next := by
  induction ops generalizing b with
  | nil => exact .nil
  | cons op rest ih => exact (step_contiguous b op).append (ih (step op b).2)

/-- What is emitted has a size, if no request is for an empty
instruction. -/
theorem size_emissions (b : CodeBuilder) {ops : List CodeOp}
    (hSizes : ∀ opcode, .instr (.other opcode 0) ∉ ops) {entry : Address × Pending}
    (h : entry ∈ b.emissions ops) : Placing.emitted.first entry < Placing.emitted.next entry := by
  induction ops generalizing b with
  | nil => cases h
  | cons op rest ih =>
      rcases List.mem_append.mp h with hFirst | hLater
      · obtain ⟨p, hp, rfl⟩ := List.mem_map.mp hFirst
        have hOther : ∀ opcode, op ≠ .instr (.other opcode 0) := by
          rintro opcode rfl
          exact hSizes opcode List.mem_cons_self
        have hSize := CodeOp.sizeAt_pos_of_emission? (Option.mem_toList.mp hp) hOther b.next
        exact Nat.lt_add_of_pos_right hSize
      · exact ih _ (fun opcode hMem => hSizes opcode (List.mem_cons_of_mem op hMem)) hLater

/-- The builder never moves back. -/
theorem next_le_run (b : CodeBuilder) (ops : List CodeOp) : b.next ≤ (b.run ops).next :=
  (run_contiguous b ops).le

/-- Protected ranges are kept in the order in which they were declared,
failed requests or not. -/
theorem run_ranges (b : CodeBuilder) (ops : List CodeOp) :
    (b.run ops).ranges.toList = b.ranges.toList ++ ops.filterMap CodeOp.range? := by
  induction ops generalizing b with
  | nil => exact (List.append_nil _).symm
  | cons op rest ih =>
      rw [run_cons, ih, (step_performs b op).ranges, List.append_assoc, List.filterMap_cons]
      cases op.range? with
      | none => rfl
      | some range => rfl

/-- A label can be resolved just if it was created and placed. -/
theorem resolve_eq_ok_iff {b : CodeBuilder} {l : Label} {a : Address} :
    b.resolve l = .ok a ↔ b.labels[l.number]? = some (some a) := by
  unfold resolve
  split
  · rename_i address hPlaced
    simp [hPlaced]
  · rename_i hUnplaced
    constructor
    · intro hSame
      cases hSame
    · intro hPlaced
      exact False.elim (hUnplaced a hPlaced)

/-- Placing a label gives an address to this label only, and only if it had
none. -/
theorem placeLabel_resolve (b : CodeBuilder) (k l : Label) (a : Address) :
    (placeLabel k b).2.resolve l = .ok a ↔
      b.resolve l = .ok a ∨ k = l ∧ (placeLabel k b).1 = .ok () ∧ b.next = a := by
  rw [resolve_eq_ok_iff, resolve_eq_ok_iff]
  unfold placeLabel
  split
  · rename_i hFree
    by_cases hSame : k = l
    · subst hSame
      have hBound := (Array.getElem?_eq_some_iff.mp hFree).1
      rw [hFree]
      simp [hBound]
    · have hNumber : k.number ≠ l.number := fun hNumber => hSame (congrArg Label.mk hNumber)
      simp [hSame, hNumber]
  · simp

/-- The addresses of labels change only where a label is placed. A label
that has an address keeps it. -/
theorem step_resolve (b : CodeBuilder) (op : CodeOp) (l : Label) (a : Address) :
    (step op b).2.resolve l = .ok a ↔
      b.resolve l = .ok a ∨ op = .placeLabel l ∧ (step op b).1 = .ok () ∧ b.next = a := by
  by_cases hNew : op = .newLabel
  · subst hNew
    have hLabels : (step .newLabel b).2.labels = b.labels.push none := rfl
    rw [resolve_eq_ok_iff, resolve_eq_ok_iff, hLabels, Array.getElem?_push]
    split
    · simp_all
    · simp
  · by_cases hPlace : ∃ k, op = .placeLabel k
    · obtain ⟨k, rfl⟩ := hPlace
      rw [CodeOp.placeLabel.injEq]
      exact placeLabel_resolve b k l a
    · have hOther := not_exists.mp hPlace
      rw [resolve_eq_ok_iff, resolve_eq_ok_iff, (step_performs b op).labels hNew hOther]
      exact (or_iff_left fun hHere => hOther l hHere.1).symm

/-- A list of requests places a label right after `before`. It takes a
request that succeeds, as one label may be asked for again. -/
def Places (b : CodeBuilder) (ops : List CodeOp) (l : Label) (before : List CodeOp) : Prop :=
  ∃ after, ops = before ++ .placeLabel l :: after ∧
    (step (.placeLabel l) (b.run before)).1 = .ok ()

/-- The builder was at an address when the label was placed. -/
def PlacedAt (b : CodeBuilder) (ops : List CodeOp) (l : Label) (a : Address) : Prop :=
  ∃ before, b.Places ops l before ∧ (b.run before).next = a

/-- A label is placed by the first request or by a later one. It follows the
recursion of a run. -/
theorem places_cons_iff {b : CodeBuilder} {op : CodeOp} {ops before : List CodeOp} {l : Label} :
    b.Places (op :: ops) l before ↔
      before = [] ∧ op = .placeLabel l ∧ (step op b).1 = .ok () ∨
        ∃ rest, before = op :: rest ∧ (step op b).2.Places ops l rest := by
  cases before with
  | nil =>
      constructor
      · rintro ⟨after, hOps, hPlaced⟩
        cases hOps
        exact .inl ⟨rfl, rfl, hPlaced⟩
      · rintro (⟨-, rfl, hPlaced⟩ | ⟨rest, hRest, -⟩)
        · exact ⟨ops, rfl, hPlaced⟩
        · cases hRest
  | cons first before =>
      constructor
      · rintro ⟨after, hOps, hPlaced⟩
        cases hOps
        exact .inr ⟨before, rfl, after, rfl, hPlaced⟩
      · rintro (⟨hEmpty, -⟩ | ⟨rest, hRest, after, rfl, hPlaced⟩)
        · cases hEmpty
        · cases hRest
          exact ⟨after, rfl, hPlaced⟩

/-- A label has the address at which it was placed, and none before. Later
requests do not move it, whatever they emit. -/
theorem run_resolve (b : CodeBuilder) (ops : List CodeOp) (l : Label) (a : Address) :
    (b.run ops).resolve l = .ok a ↔ b.resolve l = .ok a ∨ b.PlacedAt ops l a := by
  induction ops generalizing b with
  | nil => simp [run, PlacedAt, Places]
  | cons op rest ih =>
      rw [run_cons, ih, step_resolve, or_assoc]
      apply or_congr_right
      simp only [PlacedAt, places_cons_iff]
      constructor
      · intro h
        cases h with
        | inl hFirst =>
            obtain ⟨hOp, hPlaced, hNext⟩ := hFirst
            exact ⟨[], .inl ⟨rfl, hOp, hPlaced⟩, hNext⟩
        | inr hLater =>
            obtain ⟨before, hPlaces, hNext⟩ := hLater
            exact ⟨op :: before, .inr ⟨before, rfl, hPlaces⟩, hNext⟩
      · intro h
        obtain ⟨before, hPlaces, hNext⟩ := h
        cases hPlaces with
        | inl hFirst =>
            obtain ⟨rfl, hOp, hPlaced⟩ := hFirst
            exact .inl ⟨hOp, hPlaced, hNext⟩
        | inr hLater =>
            obtain ⟨before, rfl, hPlaces⟩ := hLater
            exact .inr ⟨before, hPlaces, hNext⟩

end CodeBuilder

end JvmCalls
