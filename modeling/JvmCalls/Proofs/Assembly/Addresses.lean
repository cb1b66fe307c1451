import JvmCalls.Proofs.Assembly.Labels
import JvmCalls.Proofs.Flow.Relaxation

/-! Where finished instructions stand. Each is emitted behind the one
before, with the room that it fills in the end, although its offsets are not
known yet. So finished code has no gaps. Where no instruction but the last
is empty, an address belongs to one instruction at most, and halving the
code again and again finds it. -/
namespace JvmCalls

namespace Pending

/-- An instruction at `source` stores the distance to the place of a
label. -/
def Stores (place : Label → Address → Prop) (source : Address) (l : Label) (distance : Int32) :
    Prop :=
  ∃ target, place l target ∧ source.distanceTo target = distance

/-- What an instruction at `source` becomes when labels have these places:
the same instruction, with distances instead of labels. -/
inductive Becomes (place : Label → Address → Prop) (source : Address) : Pending → Instr → Prop where
  | ready (i : Instr) : Becomes place source (.ready i) i
  | branch {comparison : Comparison} {operand : BranchOperand} {target : Label} {distance : Int32}
      {offset : Int16} (stored : Stores place source target distance)
      (short : offset.toInt = distance.toInt) :
      Becomes place source (.branch comparison operand target) (.branch comparison operand offset)
  | goto {target : Label} {distance : Int32} {offset : Int16}
      (stored : Stores place source target distance) (short : offset.toInt = distance.toInt) :
      Becomes place source (.goto target) (.goto offset)
  | tableSwitch {low : Int32} {targets : List Label} {default : Label} {distance : Int32}
      {distances : List Int32} (stored : Stores place source default distance)
      (cases : List.Forall₂ (Stores place source) targets distances) :
      Becomes place source (.tableSwitch low targets default) (.tableSwitch distance low distances)
  | lookupSwitch {targets : List (Int32 × Label)} {default : Label} {distance : Int32}
      {distances : List (Int32 × Int32)} (stored : Stores place source default distance)
      (cases : List.Forall₂ (fun x y => y.1 = x.1 ∧ Stores place source x.2 y.2) targets
        distances) :
      Becomes place source (.lookupSwitch targets default) (.lookupSwitch distance distances)

/-- A finished instruction stands where it was emitted, and fills the room
that it was given. -/
structure Fills (place : Label → Address → Prop) (emitted : Address × Pending)
    (p : PlacedInstr) : Prop where
  address : p.address = emitted.1
  instr : emitted.2.Becomes place emitted.1 p.instr
  room : p.size = emitted.2.sizeAt emitted.1

end Pending

namespace CodeBuilder

variable {b : CodeBuilder} {source : Address}

/-- A computed offset is the distance to the place of its label. -/
theorem stores_of_offset {l : Label} {distance : Int32} (h : b.offset source l = .ok distance) :
    Pending.Stores (fun l a => b.resolve l = .ok a) source l distance :=
  offset_eq_ok_iff.mp h

/-- A short offset stores the same number as the distance it was computed
from, as one that does not fit is refused. -/
theorem stores_of_shortOffset {l : Label} {offset : Int16}
    (h : b.shortOffset source l = .ok offset) :
    ∃ distance, Pending.Stores (fun l a => b.resolve l = .ok a) source l distance ∧
      offset.toInt = distance.toInt := by
  obtain ⟨target, hTarget, hShort⟩ := of_shortOffset h
  exact ⟨_, ⟨target, hTarget, rfl⟩, hShort⟩

/-- Finishing changes nothing of an instruction but its labels, which become
distances. Every case asks for the labels in the order of the source. -/
theorem becomes_of_finish {p : Pending} {i : Instr} (h : b.finish source p = .ok i) :
    p.Becomes (fun l a => b.resolve l = .ok a) source i := by
  cases p with
  | ready i =>
      cases h
      exact .ready i
  | branch comparison operand target =>
      obtain ⟨offset, hOffset, hSame⟩ := bind_eq_ok_iff.mp h
      cases hSame
      obtain ⟨distance, hStored, hShort⟩ := stores_of_shortOffset hOffset
      exact .branch hStored hShort
  | goto target =>
      obtain ⟨offset, hOffset, hSame⟩ := bind_eq_ok_iff.mp h
      cases hSame
      obtain ⟨distance, hStored, hShort⟩ := stores_of_shortOffset hOffset
      exact .goto hStored hShort
  | tableSwitch low targets default =>
      obtain ⟨distance, hDistance, hRest⟩ := bind_eq_ok_iff.mp h
      obtain ⟨distances, hCases, hSame⟩ := bind_eq_ok_iff.mp hRest
      cases hSame
      exact .tableSwitch (stores_of_offset hDistance)
        ((mapM_eq_ok_iff.mp hCases).imp fun _ _ => stores_of_offset)
  | lookupSwitch targets default =>
      obtain ⟨distance, hDistance, hRest⟩ := bind_eq_ok_iff.mp h
      obtain ⟨distances, hCases, hSame⟩ := bind_eq_ok_iff.mp hRest
      cases hSame
      refine .lookupSwitch (stores_of_offset hDistance) ((mapM_eq_ok_iff.mp hCases).imp ?_)
      rintro ⟨key, target⟩ x hCase
      obtain ⟨offset, hOffset, hSame⟩ := bind_eq_ok_iff.mp hCase
      cases hSame
      exact ⟨rfl, stores_of_offset hOffset⟩

end CodeBuilder

namespace Code

/-- Halves `size` positions from `base` on until one is left. The upper half
is dropped if it starts behind the address. -/
def bisect (l : List PlacedInstr) (a : Address) (base size : Nat) : Nat :=
  if size ≤ 1 then base
  else if l[base + size / 2]?.any fun p => a < p.address then bisect l a base (size - size / 2)
  else bisect l a (base + size / 2) (size - size / 2)
termination_by size

/-- The instruction that halving finds, if it stands at the address. -/
def bisect? (c : Code) (a : Address) : Option PlacedInstr :=
  c.instrs[bisect c.instrs a 0 c.instrs.length]?.filter fun p => p.address == a

variable {l : List PlacedInstr} {p q : PlacedInstr} {i j : Nat}

/-- In code that ascends, addresses are in the order of positions, so that
comparing addresses is comparing positions. -/
theorem address_lt_iff (hOrder : l.Pairwise fun p q => p.address < q.address)
    (hp : l[i]? = some p) (hq : l[j]? = some q) : p.address < q.address ↔ i < j := by
  obtain ⟨hi, rfl⟩ := List.getElem?_eq_some_iff.mp hp
  obtain ⟨hj, rfl⟩ := List.getElem?_eq_some_iff.mp hq
  have hAscends := List.pairwise_iff_getElem.mp hOrder
  constructor
  · intro hLess
    rcases Nat.lt_trichotomy i j with hij | rfl | hji
    · exact hij
    · exact False.elim (Nat.lt_irrefl _ hLess)
    · exact False.elim (Nat.lt_asymm hLess (hAscends j i hj hi hji))
  · exact hAscends i j hi hj

/-- The half that is kept holds the instruction at the address. The window
shrinks in every turn, and it always reaches to the end of the code at
most. -/
theorem bisect_eq {base size : Nat} (hOrder : l.Pairwise fun p q => p.address < q.address)
    (hp : l[i]? = some p) (hLow : base ≤ i) (hHigh : i < base + size)
    (hEnd : base + size ≤ l.length) : bisect l p.address base size = i := by
  fun_induction bisect l p.address base size with
  | case1 base size hOne => omega
  | case2 base size hMany hUpper ih =>
      obtain ⟨q, hq, hBehind⟩ := (Option.any_eq_true _ _).mp hUpper
      have hBelow := (address_lt_iff hOrder hp hq).mp (of_decide_eq_true hBehind)
      exact ih hLow (by omega) (by omega)
  | case3 base size hMany hUpper ih =>
      have hMiddle : base + size / 2 < l.length := by omega
      have hq := List.getElem?_eq_getElem hMiddle
      -- The middle itself is kept, so that the window may start at the instruction.
      rw [hq, Option.any_some, decide_eq_true_iff, address_lt_iff hOrder hp hq] at hUpper
      exact ih (by omega) (by omega) (by omega)

variable {c : Code} {a : Address}

/-- Looking up an instruction fails just if there is none at the address. -/
theorem instrAt_eq_ok_iff : c.instrAt a = .ok p ↔ c.instrAt? a = some p := by
  unfold instrAt
  cases c.instrAt? a with
  | none => simp
  | some q => simp

/-- Where addresses ascend, no two instructions share one, so that the first
found is the only one. -/
theorem instrAt?_eq_some_iff (hOrder : c.instrs.Pairwise fun p q => p.address < q.address) :
    c.instrAt? a = some p ↔ p ∈ c.instrs ∧ p.address = a := by
  have hNodup : c.addresses.Nodup := by
    refine List.pairwise_map.mpr (hOrder.imp ?_)
    intro p q hLess hSame
    rw [hSame] at hLess
    exact Nat.lt_irrefl _ hLess
  constructor
  · intro hFound
    exact of_instrAt (instrAt_eq_ok_iff.mpr hFound)
  · rintro ⟨hp, rfl⟩
    have hSome : (c.instrAt? p.address).isSome = true :=
      isSome_instrAt?_iff.mpr (List.mem_map_of_mem hp)
    obtain ⟨q, hFound⟩ := Option.isSome_iff_exists.mp hSome
    obtain ⟨hq, hSame⟩ := of_instrAt (instrAt_eq_ok_iff.mpr hFound)
    rw [hFound, eq_of_address_eq hNodup hp hq hSame]

/-- Halving misses no instruction of code that ascends, and finds none that
is not there. -/
theorem bisect?_eq_some_iff (hOrder : c.instrs.Pairwise fun p q => p.address < q.address) :
    c.bisect? a = some p ↔ p ∈ c.instrs ∧ p.address = a := by
  rw [bisect?, Option.filter_eq_some_iff, beq_iff_eq]
  constructor
  · rintro ⟨hFound, hAddress⟩
    exact ⟨List.mem_of_getElem? hFound, hAddress⟩
  · rintro ⟨hp, rfl⟩
    obtain ⟨i, hi⟩ := List.getElem?_of_mem hp
    have hLength := (List.getElem?_eq_some_iff.mp hi).1
    rw [bisect_eq hOrder hi (Nat.zero_le i) (by omega) (by omega)]
    exact ⟨hi, rfl⟩

end Code

namespace CodeBuilder

section Build

variable {pool : ConstantPool} {ops : List CodeOp} {code : Code}
  (hBuilt : (run { pool } ops).build = .ok code)

include hBuilt

/-- Instruction by instruction, finished code is what was emitted, with the
places of labels where the requests placed them. -/
theorem fills_emissions :
    List.Forall₂ (Pending.Fills (PlacedAt { pool } ops)) (emissions { pool } ops) code.instrs := by
  have hPlaces : (fun l a => (run { pool } ops).resolve l = .ok a) = PlacedAt { pool } ops := by
    funext l a
    exact propext resolve_run_new
  apply (finishes_emissions hBuilt).imp
  intro emitted p hFinishes
  refine ⟨hFinishes.1, ?_, ?_⟩
  · rw [← hPlaces]
    exact becomes_of_finish hFinishes.2
  · rw [PlacedInstr.size, hFinishes.1, sizeAt_finish hFinishes.2]

/-- What is found at an address is what was emitted there, as both have the
same position. -/
theorem instrAt_eq_ok_iff_emitted
    (hOrder : code.instrs.Pairwise fun p q => p.address < q.address) {a : Address}
    {p : PlacedInstr} :
    code.instrAt a = .ok p ↔ ∃ (i : Nat) (emitted : Pending),
      (emissions { pool } ops)[i]? = some (a, emitted) ∧ code.instrs[i]? = some p := by
  have hFills := fills_emissions hBuilt
  rw [Code.instrAt_eq_ok_iff, Code.instrAt?_eq_some_iff hOrder]
  constructor
  · rintro ⟨hp, rfl⟩
    obtain ⟨i, hi⟩ := List.getElem?_of_mem hp
    obtain ⟨⟨address, emitted⟩, hEmitted, hFill⟩ := getElem?_of_forall₂ hFills.flip hi
    obtain rfl : p.address = address := hFill.address
    exact ⟨i, emitted, hEmitted, hi⟩
  · rintro ⟨i, emitted, hEmitted, hi⟩
    obtain ⟨q, hq, hFill⟩ := getElem?_of_forall₂ hFills hEmitted
    obtain rfl : p = q := Option.some.inj (hi.symm.trans hq)
    exact ⟨List.mem_of_getElem? hi, hFill.address⟩

end Build

/-- The finished instructions are those that were emitted, in order. The
first stands at the entry and each of the others right behind the one
before, as large as that is in the end, and the code is as long as the
builder went. If no instruction but the last is empty, addresses ascend, so
that an address gives the instruction that was emitted there, and
nothing where there is none. Halving the code gives the same. -/
theorem build_lays_out (pool : ConstantPool) {ops : List CodeOp} {code : Code}
    (hBuilt : (run { pool } ops).build = .ok code) :
    List.Forall₂ (Pending.Fills (PlacedAt { pool } ops)) (emissions { pool } ops) code.instrs ∧
    (∀ p, code.instrs.head? = some p → p.address = .entry) ∧
    code.instrs.IsChain (fun p q => q.address = p.address.advance (p.instr.sizeAt p.address)) ∧
    code.length = (run { pool } ops).next.offset ∧
    ((∀ p ∈ code.instrs.dropLast, p.size ≠ 0) →
      code.addresses.Pairwise (· < ·) ∧
      (∀ a, (∃ p, code.instrAt a = .ok p) ↔ ∃ emitted, (a, emitted) ∈ emissions { pool } ops) ∧
      (∀ a p, code.instrAt a = .ok p ↔ ∃ (i : Nat) (emitted : Pending),
        (emissions { pool } ops)[i]? = some (a, emitted) ∧ code.instrs[i]? = some p) ∧
      ∀ a, code.bisect? a = code.instrAt? a) := by
  have hContiguous := contiguous_build hBuilt
  have hFills := fills_emissions hBuilt
  refine ⟨hFills, fun p => hContiguous.first_head, hContiguous.isChain, length_build hBuilt, ?_⟩
  intro hSizes
  have hOrder := hContiguous.pairwise fun p hp =>
    Nat.lt_add_of_pos_right (Nat.pos_of_ne_zero (hSizes p hp))
  refine ⟨List.pairwise_map.mpr hOrder, ?_, ?_, ?_⟩
  · intro a
    simp only [instrAt_eq_ok_iff_emitted hBuilt hOrder]
    constructor
    · rintro ⟨p, i, emitted, hEmitted, -⟩
      exact ⟨emitted, List.mem_of_getElem? hEmitted⟩
    · rintro ⟨emitted, hMem⟩
      obtain ⟨i, hEmitted⟩ := List.getElem?_of_mem hMem
      obtain ⟨p, hp, -⟩ := getElem?_of_forall₂ hFills hEmitted
      exact ⟨p, i, emitted, hEmitted, hp⟩
  · intro a p
    exact instrAt_eq_ok_iff_emitted hBuilt hOrder
  · intro a
    ext p
    rw [Code.bisect?_eq_some_iff hOrder, Code.instrAt?_eq_some_iff hOrder]

end CodeBuilder

/-- A switch that is padded, a branch, and an instruction without length. -/
def paddedRequests : List CodeOp :=
  [.newLabel, .newLabel, .instr (.other 26 1), .lookupSwitch [(1, ⟨0⟩)] ⟨1⟩, .placeLabel ⟨0⟩,
   .branch .eq .zero ⟨1⟩, .placeLabel ⟨1⟩, .instr (.other 0 0)]

def paddedCode : Code where
  maxStack := 0
  maxLocals := 0
  instrs := [⟨⟨0⟩, .other 26 1⟩, ⟨⟨1⟩, .lookupSwitch 22 [(1, 19)]⟩, ⟨⟨20⟩, .branch .eq .zero 3⟩,
    ⟨⟨23⟩, .other 0 0⟩]
  handlers := []
  lines := []

theorem paddedCode_laid_out :
    (CodeBuilder.run { pool := {} } paddedRequests).build = .ok paddedCode ∧
      (∀ p ∈ paddedCode.instrs.dropLast, p.size ≠ 0) ∧
      paddedCode.length = 23 ∧
      paddedCode.instrAt ⟨20⟩ = .ok ⟨⟨20⟩, .branch .eq .zero 3⟩ ∧
      paddedCode.bisect? ⟨23⟩ = some ⟨⟨23⟩, .other 0 0⟩ ∧
      ¬ ∃ p, paddedCode.instrAt ⟨21⟩ = .ok p := by
  have hBuilt : (CodeBuilder.run { pool := {} } paddedRequests).build = .ok paddedCode := rfl
  have hSizes : ∀ p ∈ paddedCode.instrs.dropLast, p.size ≠ 0 := by decide
  have hEmissions : CodeBuilder.emissions { pool := {} } paddedRequests =
      [(⟨0⟩, .ready (.other 26 1)), (⟨1⟩, .lookupSwitch [(1, ⟨0⟩)] ⟨1⟩),
        (⟨20⟩, .branch .eq .zero ⟨1⟩), (⟨23⟩, .ready (.other 0 0))] := rfl
  obtain ⟨-, -, -, hLength, hFound⟩ := CodeBuilder.build_lays_out {} hBuilt
  obtain ⟨-, hSome, hInstr, hBisect⟩ := hFound hSizes
  rw [hEmissions] at hSome hInstr
  refine ⟨hBuilt, hSizes, hLength, (hInstr _ _).mpr ⟨2, _, rfl, rfl⟩, ?_, ?_⟩
  · rw [hBisect, ← Code.instrAt_eq_ok_iff, hInstr]
    exact ⟨3, _, rfl, rfl⟩
  · rw [hSome]
    simp

end JvmCalls
