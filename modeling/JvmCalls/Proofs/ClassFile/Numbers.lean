import JvmCalls.Proofs.ClassFile.Interning

/-! Floating-point constants in a pool. Entries are shared by number and not
by bits. So the two zeros of a format share one entry, which keeps the sign
of the one that came first, and a pattern that denotes no number gets an
entry of its own each time. All other constants are kept bit for bit and
shared. -/
namespace JvmCalls

namespace BinaryFormat

variable {f : BinaryFormat} {a b : Nat}

/-- The pattern of the negative zero. -/
def signBit (f : BinaryFormat) : Nat := 1 <<< (f.fractionBits + f.exponentBits)

/-- The two zeros of a format, in either order. -/
def OppositeZeros (f : BinaryFormat) (a b : Nat) : Prop :=
  a = 0 ∧ b = f.signBit ∨ a = f.signBit ∧ b = 0

theorem signBit_pos (f : BinaryFormat) : 0 < f.signBit := by
  rw [signBit, Nat.one_shiftLeft]
  exact Nat.two_pow_pos _

/-- The fields of a zero below its sign are one field without bits. -/
theorem isZero_iff_mod (a : Nat) : f.isZero a = true ↔ a % f.signBit = 0 := by
  have hPos := Nat.two_pow_pos f.fractionBits
  simp only [isZero, biasedExponent, fraction, signBit, Nat.one_shiftLeft,
    Nat.shiftRight_eq_div_pow, Nat.pow_add, Nat.mod_mul, Bool.and_eq_true, beq_iff_eq,
    Nat.add_eq_zero_iff, Nat.mul_eq_zero, Nat.ne_of_gt hPos, false_or]
  exact and_comm

/-- Of the patterns of a format, just two are zeros. They differ in their
sign. -/
theorem isZero_iff (h : a < f.signBit * 2) : f.isZero a = true ↔ a = 0 ∨ a = f.signBit := by
  rw [isZero_iff_mod]
  constructor
  · intro hMod
    have hSplit := Nat.div_add_mod a f.signBit
    have hQuotient : a / f.signBit < 2 := Nat.div_lt_of_lt_mul h
    rcases Nat.le_one_iff_eq_zero_or_eq_one.mp (Nat.le_of_lt_succ hQuotient) with
      hPositive | hNegative
    · rw [hPositive, hMod] at hSplit
      exact .inl hSplit.symm
    · rw [hNegative, hMod, Nat.mul_one] at hSplit
      exact .inr hSplit.symm
  · rintro (rfl | rfl)
    · exact Nat.zero_mod _
    · exact Nat.mod_self _

/-- A zero is a number. -/
theorem isNaN_of_isZero (h : f.isZero a = true) : f.isNaN a = false := by
  simp only [isZero, Bool.and_eq_true, beq_iff_eq] at h
  simp [isNaN, h.2]

/-- Both of two opposite zeros are zeros. -/
theorem OppositeZeros.isZero (h : f.OppositeZeros a b) : f.isZero a = true ∧ f.isZero b = true := by
  rw [isZero_iff_mod, isZero_iff_mod]
  rcases h with ⟨rfl, rfl⟩ | ⟨rfl, rfl⟩
  · exact ⟨Nat.zero_mod _, Nat.mod_self _⟩
  · exact ⟨Nat.mod_self _, Nat.zero_mod _⟩

theorem OppositeZeros.ne (h : f.OppositeZeros a b) : a ≠ b := by
  have hPos := f.signBit_pos
  unfold OppositeZeros at h
  omega

/-- Patterns are equal as numbers if they are equal and denote one, or if
both are zeros. No other two patterns denote the same number. -/
theorem numberEq_iff (ha : a < f.signBit * 2) (hb : b < f.signBit * 2) :
    f.numberEq a b = true ↔ a = b ∧ f.isNaN b = false ∨ f.OppositeZeros a b := by
  simp only [numberEq, Bool.and_eq_true, Bool.or_eq_true, Bool.not_eq_true', beq_iff_eq]
  constructor
  · rintro ⟨⟨-, hNumber⟩, hEqual | ⟨hZero, hOther⟩⟩
    · exact .inl ⟨hEqual, hNumber⟩
    · rcases (isZero_iff ha).mp hZero with rfl | rfl
      · rcases (isZero_iff hb).mp hOther with rfl | rfl
        · exact .inl ⟨rfl, hNumber⟩
        · exact .inr (.inl ⟨rfl, rfl⟩)
      · rcases (isZero_iff hb).mp hOther with rfl | rfl
        · exact .inr (.inr ⟨rfl, rfl⟩)
        · exact .inl ⟨rfl, hNumber⟩
  · rintro (⟨rfl, hNumber⟩ | hZeros)
    · exact ⟨⟨hNumber, hNumber⟩, .inl rfl⟩
    · obtain ⟨hZero, hOther⟩ := hZeros.isZero
      exact ⟨⟨isNaN_of_isZero hZero, isNaN_of_isZero hOther⟩, .inr ⟨hZero, hOther⟩⟩

end BinaryFormat

theorem Single.bits_lt (a : Single) : a.bits.toNat < BinaryFormat.single.signBit * 2 :=
  a.bits.toNat_lt

theorem Double.bits_lt (a : Double) : a.bits.toNat < BinaryFormat.double.signBit * 2 :=
  a.bits.toNat_lt

namespace Constant

/-- A floating-point constant that denotes no number. There are many such
patterns, and none of them equals any pattern. -/
def isNaN : Constant → Bool
  | float a => BinaryFormat.single.isNaN a.bits.toNat
  | double a => BinaryFormat.double.isNaN a.bits.toNat
  | _ => false

/-- The two zeros of a floating-point format. -/
def OppositeZeros : Constant → Constant → Prop
  | float a, float b => BinaryFormat.single.OppositeZeros a.bits.toNat b.bits.toNat
  | double a, double b => BinaryFormat.double.OppositeZeros a.bits.toNat b.bits.toNat
  | _, _ => False

variable {c d : Constant}

theorem OppositeZeros.ne (h : c.OppositeZeros d) : c ≠ d := by
  rintro rfl
  cases c with
  | float a => exact BinaryFormat.OppositeZeros.ne h rfl
  | double a => exact BinaryFormat.OppositeZeros.ne h rfl
  | _ => exact h

theorem OppositeZeros.isNaN_eq (h : c.OppositeZeros d) : d.isNaN = false := by
  unfold OppositeZeros at h
  split at h
  · exact BinaryFormat.isNaN_of_isZero h.isZero.2
  · exact BinaryFormat.isNaN_of_isZero h.isZero.2
  · exact False.elim h

/-- Constants are shared if they are equal, unless they denote no number,
and zeros are. So sharing loses nothing but the sign of a zero. -/
theorem same_iff : c.same d = true ↔ c = d ∧ d.isNaN = false ∨ c.OppositeZeros d := by
  unfold same
  split
  · next a b =>
      rw [Single.numberEq, BinaryFormat.numberEq_iff a.bits_lt b.bits_lt, UInt32.toNat_inj,
        float.injEq, Single.mk.injEq]
      rfl
  · next a b =>
      rw [Double.numberEq, BinaryFormat.numberEq_iff a.bits_lt b.bits_lt, UInt64.toNat_inj,
        double.injEq, Double.mk.injEq]
      rfl
  · next hFloat hDouble =>
      have hZeros : ¬ c.OppositeZeros d := by
        unfold OppositeZeros
        split
        · next a b => exact False.elim (hFloat a b rfl rfl)
        · next a b => exact False.elim (hDouble a b rfl rfl)
        · exact id
      rw [beq_iff_eq, or_iff_left hZeros, iff_self_and]
      rintro rfl
      cases c with
      | float a => exact False.elim (hFloat a a rfl rfl)
      | double a => exact False.elim (hDouble a a rfl rfl)
      | _ => rfl

end Constant

namespace ConstantPool

variable {p : ConstantPool} {c d : Constant} {index : PoolIndex}

/-- A pattern that denotes no number is never found, so it is added each
time. -/
theorem push_of_isNaN (h : p.Interned) (hNaN : c.isNaN = true) :
    push c p = if p.size + c.width ≤ capacity then (.ok p.nextIndex, p.append p.nextIndex c)
      else (.error .constantPoolOverflow, p) := by
  rcases push_cases h c with ⟨i, d, -, hSame, -⟩ | ⟨-, ⟨hRoom, hPush⟩ | ⟨hFull, hPush⟩⟩
  · rcases Constant.same_iff.mp hSame with ⟨-, hNumber⟩ | hZeros
    · rw [hNaN] at hNumber
      cases hNumber
    · rw [hZeros.isNaN_eq] at hNaN
      cases hNaN
  · rw [hPush, if_pos hRoom]
  · rw [hPush, if_neg (Nat.not_le.mpr hFull)]

/-- A zero gets the index of the zero of the other sign, if that one is
there already. -/
theorem push_of_oppositeZeros (h : p.Interned) (hHeld : p.get index = .ok d)
    (hZeros : d.OppositeZeros c) : push c p = (.ok index, p) :=
  push_of_same h hHeld (Constant.same_iff.mpr (.inr hZeros))

/-- Nothing but the other zero can stand in for a constant. In all other
cases a constant is read back as it was pushed. -/
theorem get_push_iff (h : p.Interned) (hOk : (push c p).1 = .ok index) :
    (push c p).2.get index = .ok c ↔ ∀ i d, p.get i = .ok d → ¬ d.OppositeZeros c := by
  constructor
  · intro hKept i d hHeld hZeros
    rw [push_of_oppositeZeros h hHeld hZeros] at hKept hOk
    cases hOk
    exact hZeros.ne (Except.ok.inj (hHeld.symm.trans hKept))
  · intro hNone
    rcases push_cases h c with ⟨i, d, hHeld, hSame, hPush⟩ | ⟨-, ⟨hRoom, hPush⟩ | ⟨-, hPush⟩⟩
    · rw [hPush] at hOk ⊢
      cases hOk
      rcases Constant.same_iff.mp hSame with ⟨rfl, -⟩ | hZeros
      · exact hHeld
      · exact False.elim (hNone _ d hHeld hZeros)
    · rw [hPush] at hOk ⊢
      cases hOk
      exact get_nextIndex hRoom
    · rw [hPush] at hOk
      cases hOk

/-- A constant that is in the pool bit for bit is found again just if it is
not a pattern without a number. -/
theorem push_of_get_iff (h : p.Interned) (hHeld : p.get index = .ok c) :
    push c p = (.ok index, p) ↔ c.isNaN = false := by
  constructor
  · intro hShared
    apply Bool.eq_false_iff.mpr
    intro hNaN
    rw [push_of_isNaN h hNaN] at hShared
    split at hShared
    · have hSize := congrArg size (Prod.mk.inj hShared).2
      have hWidth := c.width_eq
      rw [size_append] at hSize
      omega
    · cases (Prod.mk.inj hShared).1
  · intro hNumber
    exact push_of_same h hHeld (Constant.same_iff.mpr (.inl ⟨rfl, hNumber⟩))

/-- What pushes keep of a constant after any pushes before. It stands bit
for bit at its index just if the pool does not hold the zero of the other
sign, which takes its place otherwise. A constant that is in the pool is
shared just if it denotes a number or is none of the floating-point ones,
and is added once more otherwise. -/
theorem push_exact_iff {history : List PoolOp} {p : ConstantPool} (h : pushAll {} history = p)
    (c : Constant) :
    (∀ index, (push c p).1 = .ok index →
      ((push c p).2.get index = .ok c ↔ ∀ i d, p.get i = .ok d → ¬ d.OppositeZeros c)) ∧
    (∀ i d, p.get i = .ok d → d.OppositeZeros c → push c p = (.ok i, p)) ∧
    (∀ i, p.get i = .ok c → (push c p = (.ok i, p) ↔ c.isNaN = false)) ∧
    (c.isNaN = true → push c p = if p.size + c.width ≤ capacity then
      (.ok p.nextIndex, p.append p.nextIndex c) else (.error .constantPoolOverflow, p)) := by
  have hp : p.Interned := h ▸ (pushAll_sound interned_empty history).1
  exact ⟨fun index => get_push_iff hp, fun i d => push_of_oppositeZeros hp,
    fun i => push_of_get_iff hp, push_of_isNaN hp⟩

/-- The negative zero keeps its sign where the other zero is one of another
format. Twice the same pattern without a number takes two entries. -/
theorem zerosOfBothFormats_exact :
    ∃ p, pushAll {} [.constant (.double ⟨0⟩), .constant (.float ⟨0x7fc00000⟩)] = p ∧
      (push (.float ⟨0x80000000⟩) p).1 = .ok 4 ∧
      (push (.float ⟨0x80000000⟩) p).2.get 4 = .ok (.float ⟨0x80000000⟩) ∧
      push (.double ⟨0x8000000000000000⟩) p = (.ok 1, p) ∧
      push (.float ⟨0x7fc00000⟩) p = (.ok 4, p.append 4 (.float ⟨0x7fc00000⟩)) := by
  have hPool : pushAll {} [.constant (.double ⟨0⟩), .constant (.float ⟨0x7fc00000⟩)] =
      ⟨#[some (.double ⟨0⟩), none, some (.float ⟨0x7fc00000⟩)], {}⟩ := by
    have hNew : (Constant.double ⟨0⟩).same (.float ⟨0x7fc00000⟩) = false := rfl
    simp [pushAll, PoolOp.push, push, find?, nextIndex?_eq, append, Constant.width, capacity, size,
      List.findIdx?_cons, hNew]
  obtain ⟨hExact, -⟩ := push_exact_iff hPool (.float ⟨0x80000000⟩)
  obtain ⟨-, hZeros, -⟩ := push_exact_iff hPool (.double ⟨0x8000000000000000⟩)
  obtain ⟨-, -, -, hNaN⟩ := push_exact_iff hPool (.float ⟨0x7fc00000⟩)
  have hIndex : (push (.float ⟨0x80000000⟩)
      ⟨#[some (.double ⟨0⟩), none, some (.float ⟨0x7fc00000⟩)], {}⟩).1 = .ok 4 := by
    have hFirst : (Constant.double ⟨0⟩).same (.float ⟨0x80000000⟩) = false := rfl
    have hLast : (Constant.float ⟨0x7fc00000⟩).same (.float ⟨0x80000000⟩) = false := rfl
    simp [push, find?, nextIndex?_eq, nextIndex, Constant.width, capacity, size,
      List.findIdx?_cons, hFirst, hLast]
  refine ⟨_, hPool, hIndex, (hExact 4 hIndex).mpr ?_, hZeros 1 _ rfl (.inl ⟨rfl, rfl⟩), hNaN rfl⟩
  intro i d hHeld hOpposite
  have hMem := Array.mem_of_getElem? (get_eq_ok_iff.mp hHeld).2
  simp only [List.mem_toArray, List.mem_cons, Option.some.injEq, reduceCtorEq, List.not_mem_nil,
    or_false, false_or] at hMem
  rcases hMem with rfl | rfl
  · exact hOpposite
  · simp [Constant.OppositeZeros, BinaryFormat.OppositeZeros, BinaryFormat.signBit,
      BinaryFormat.single] at hOpposite

/-- The entry of the negative zero holds the other one, and a pattern
without a number that is pushed again gets a second entry. -/
theorem negativeZero_loses_sign :
    ∃ p q, pushAll {} [.constant (.float ⟨0⟩)] = p ∧ p.get 1 = .ok (.float ⟨0⟩) ∧
      push (.float ⟨0x80000000⟩) p = (.ok 1, p) ∧
      Constant.float ⟨0⟩ ≠ .float ⟨0x80000000⟩ ∧
      pushAll {} [.constant (.float ⟨0x7fc00000⟩)] = q ∧
      q.get 1 = .ok (.float ⟨0x7fc00000⟩) ∧
      push (.float ⟨0x7fc00000⟩) q = (.ok 2, q.append 2 (.float ⟨0x7fc00000⟩)) := by
  have hPool (x : Single) : pushAll {} [.constant (.float x)] = ⟨#[some (.float x)], {}⟩ := by
    simp [pushAll, PoolOp.push, push, find?, nextIndex?_eq, append, Constant.width, capacity, size]
  have hInterned (x : Single) : Interned ⟨#[some (.float x)], {}⟩ :=
    hPool x ▸ (pushAll_sound interned_empty _).1
  refine ⟨_, _, hPool ⟨0⟩, rfl, ?_, by decide, hPool ⟨0x7fc00000⟩, rfl, ?_⟩
  · exact push_of_oppositeZeros (hInterned ⟨0⟩) rfl (.inl ⟨rfl, rfl⟩)
  · rw [push_of_isNaN (hInterned ⟨0x7fc00000⟩) rfl]
    rfl

end ConstantPool

end JvmCalls
