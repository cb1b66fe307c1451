import JvmCalls.ClassFile.Pool

/-! Interning. Whatever was pushed into a pool, and whatever failed on the
way, the pool holds every constant once and finds it where it stands. A push
adds at most one constant behind the others, so an index keeps its
meaning. -/
namespace JvmCalls

namespace BinaryFormat

variable {f : BinaryFormat} {a b c : Nat}

theorem numberEq_symm (h : f.numberEq a b = true) : f.numberEq b a = true := by
  simp only [numberEq, Bool.and_eq_true, Bool.or_eq_true, beq_iff_eq] at h ⊢
  obtain ⟨⟨hLeft, hRight⟩, hEqual | ⟨hZero, hOther⟩⟩ := h
  · exact ⟨⟨hRight, hLeft⟩, .inl hEqual.symm⟩
  · exact ⟨⟨hRight, hLeft⟩, .inr ⟨hOther, hZero⟩⟩

/-- Number equality is transitive, although not reflexive: a pattern that
denotes no number does not even equal itself. -/
theorem numberEq_trans (h : f.numberEq a b = true) (h' : f.numberEq b c = true) :
    f.numberEq a c = true := by
  simp only [numberEq, Bool.and_eq_true, Bool.or_eq_true, beq_iff_eq] at h h' ⊢
  refine ⟨⟨h.1.1, h'.1.2⟩, ?_⟩
  obtain ⟨-, rfl | hZero⟩ := h
  · exact h'.2
  · obtain ⟨-, rfl | hOther⟩ := h'
    · exact .inr hZero
    · exact .inr ⟨hZero.1, hOther.2⟩

end BinaryFormat

namespace Constant

/-- Sharing is number equality of numbers of the same kind, and equality of
all else. Numbers of two kinds are never shared, even if both are zero. -/
theorem same_eq_true_iff {c d : Constant} : c.same d = true ↔
    (∃ a b, c = .float a ∧ d = .float b ∧ a.numberEq b = true) ∨
    (∃ a b, c = .double a ∧ d = .double b ∧ a.numberEq b = true) ∨
    c = d ∧ (∀ a, c ≠ .float a) ∧ ∀ a, c ≠ .double a := by
  unfold same
  split
  · simp
  · simp
  · next hFloat hDouble =>
      rw [beq_iff_eq]
      constructor
      · rintro rfl
        exact .inr (.inr ⟨rfl, fun a ha => hFloat a a ha ha, fun a ha => hDouble a a ha ha⟩)
      · rintro (⟨a, b, hc, hd, -⟩ | ⟨a, b, hc, hd, -⟩ | ⟨hEqual, -⟩)
        · exact False.elim (hFloat a b hc hd)
        · exact False.elim (hDouble a b hc hd)
        · exact hEqual

/-- Sharing does not depend on which of two constants came first. -/
theorem same_symm {c d : Constant} (h : c.same d = true) : d.same c = true := by
  rw [same_eq_true_iff] at h ⊢
  rcases h with ⟨a, b, hc, hd, hEqual⟩ | ⟨a, b, hc, hd, hEqual⟩ | ⟨rfl, hKind⟩
  · exact .inl ⟨b, a, hd, hc, BinaryFormat.numberEq_symm hEqual⟩
  · exact .inr (.inl ⟨b, a, hd, hc, BinaryFormat.numberEq_symm hEqual⟩)
  · exact .inr (.inr ⟨rfl, hKind⟩)

/-- Sharing is transitive. So an entry that stands for a constant stands for
all that share with it. -/
theorem same_trans {c d e : Constant} (h : c.same d = true) (h' : d.same e = true) :
    c.same e = true := by
  rw [same_eq_true_iff] at h
  rcases h with ⟨a, b, rfl, rfl, hEqual⟩ | ⟨a, b, rfl, rfl, hEqual⟩ | ⟨rfl, -⟩
  · rcases same_eq_true_iff.mp h' with ⟨b', x, hb, rfl, hOther⟩ | ⟨_, _, hb, -⟩ | ⟨-, hKind, -⟩
    · cases hb
      exact BinaryFormat.numberEq_trans hEqual hOther
    · cases hb
    · exact False.elim (hKind b rfl)
  · rcases same_eq_true_iff.mp h' with ⟨_, _, hb, -⟩ | ⟨b', x, hb, rfl, hOther⟩ | ⟨-, -, hKind⟩
    · cases hb
    · cases hb
      exact BinaryFormat.numberEq_trans hEqual hOther
    · exact False.elim (hKind b rfl)
  · exact h'

/-- A text is shared with no other text. So the map of texts finds what a
search would find. -/
theorem same_utf8_iff {c : Constant} {text : String} :
    c.same (.utf8 text) = true ↔ c = .utf8 text := by
  rw [same_eq_true_iff]
  constructor
  · rintro (⟨_, _, _, hText, _⟩ | ⟨_, _, _, hText, _⟩ | ⟨hSame, _⟩)
    · cases hText
    · cases hText
    · exact hSame
  · rintro rfl
    exact .inr (.inr ⟨rfl, nofun, nofun⟩)

theorem width_eq (c : Constant) : c.width = 1 ∨ c.width = 2 := by
  cases c <;> simp [width]

/-- The entries that a constant takes. The second half of a wide one is
empty. -/
def slots (c : Constant) : List (Option Constant) :=
  some c :: List.replicate (c.width - 1) none

theorem length_slots (c : Constant) : c.slots.length = c.width := by
  rcases c.width_eq with hWidth | hWidth <;> simp [slots, hWidth]

/-- Of the entries that a constant takes, only the first holds it. -/
theorem getElem?_slots {c d : Constant} {k : Nat} :
    c.slots[k]? = some (some d) ↔ k = 0 ∧ d = c := by
  cases k with
  | zero => simp [slots, eq_comm]
  | succ k => simp [slots, List.getElem?_replicate]

end Constant

namespace ConstantPool

variable {p : ConstantPool} {c d : Constant} {index : PoolIndex}

/-- An index is one more than a position, and the index zero finds
nothing. -/
theorem get_eq_ok_iff : p.get index = .ok c ↔
    index ≠ 0 ∧ p.entries[index.toNat - 1]? = some (some c) := by
  unfold get
  split
  · next hZero => simp [hZero]
  · next hIndex =>
      split
      · next d hEntry => simp [hIndex, hEntry]
      · next hEntry =>
          constructor
          · intro hError
            cases hError
          · rintro ⟨-, hSome⟩
            exact False.elim (hEntry c hSome)

/-- A look-up that fails says which index it was. It has no other way to
fail. -/
theorem get_eq_error_iff :
    p.get index = .error (.constantNotFound index) ↔ ∀ c, p.get index ≠ .ok c := by
  constructor
  · intro hError c hOk
    rw [hError] at hOk
    cases hOk
  · intro hNone
    unfold get at hNone ⊢
    split
    · rfl
    · next hIndex =>
        split
        · next c hEntry =>
            rw [if_neg hIndex, hEntry] at hNone
            exact False.elim (hNone c rfl)
        · rfl

theorem toNat_pos_of_get (h : p.get index = .ok c) : 0 < index.toNat := by
  have hIndex := (get_eq_ok_iff.mp h).1
  rw [ne_eq, ← UInt16.toNat_inj] at hIndex
  exact Nat.pos_of_ne_zero hIndex

/-- An index that finds something is not behind those in use. -/
theorem toNat_le_of_get (h : p.get index = .ok c) : index.toNat ≤ p.size := by
  obtain ⟨-, hEntry⟩ := get_eq_ok_iff.mp h
  obtain ⟨hBound, -⟩ := Array.getElem?_eq_some_iff.mp hEntry
  have hPos := toNat_pos_of_get h
  simp only [size]
  omega

/-- No pool has more indices than this. One index of 16 bits is the zero,
and another one has to be behind all that are in use. -/
def capacity : Nat := 65534

/-- The index behind those in use. -/
def nextIndex (p : ConstantPool) : PoolIndex := (p.size + 1).toUInt16

/-- There is an index for a new entry just if all that it takes are within
the capacity. Otherwise one of the two checked sums overflows. -/
theorem nextIndex?_eq (p : ConstantPool) (c : Constant) :
    p.nextIndex? c = if p.size + c.width ≤ capacity then some p.nextIndex else none := by
  have hWidth := c.width_eq
  have hSmall : c.width.toUInt16.toNat = c.width := Nat.mod_eq_of_lt (by omega)
  rw [nextIndex?, PoolIndex.ofNat?, UInt16.size, capacity]
  by_cases hIndex : p.size + 1 < 65536
  · have hNext : (p.size + 1).toUInt16.toNat = p.size + 1 := Nat.mod_eq_of_lt hIndex
    rw [if_pos hIndex, Option.filter_some, PoolIndex.add?, PoolIndex.ofNat?, UInt16.size, hNext,
      hSmall]
    by_cases hRoom : p.size + c.width ≤ 65534
    · rw [if_pos hRoom, if_pos (show p.size + 1 + c.width < 65536 by omega)]
      rfl
    · rw [if_neg hRoom, if_neg (show ¬ p.size + 1 + c.width < 65536 by omega)]
      rfl
  · rw [if_neg hIndex, if_neg (by omega)]
    rfl

/-- What a pool looks like after any pushes. This is the invariant of all
operations on pools, and whatever is known of them follows from it. -/
structure Interned (p : ConstantPool) : Prop where
  bounded : p.size ≤ capacity
  /-- The index of texts agrees with the entries. -/
  texts : ∀ text index, p.texts[text]? = some index ↔ p.get index = .ok (.utf8 text)
  /-- No two indices hold constants that are the same. -/
  distinct : ∀ i j c d, p.get i = .ok c → p.get j = .ok d → c.same d = true → i = j
  /-- A wide constant takes the index behind it too, which holds nothing. -/
  padded : ∀ index c, p.get index = .ok c → c.width = 2 →
    index.toNat < p.size ∧ p.get (index + 1) = .error (.constantNotFound (index + 1))
  /-- No other index in use is empty. -/
  filled : ∀ index : PoolIndex, index ≠ 0 → index.toNat ≤ p.size →
    (∃ c, p.get index = .ok c) ∨ ∃ c, p.get (index - 1) = .ok c ∧ c.width = 2

/-- A pool without entries is interned. -/
theorem interned_empty : Interned {} where
  bounded := Nat.zero_le _
  texts text index := by simp [get_eq_ok_iff]
  distinct i j c d hi := by simp [get_eq_ok_iff] at hi
  padded index c hc := by simp [get_eq_ok_iff] at hc
  filled index hIndex hBound := by
    rw [ne_eq, ← UInt16.toNat_inj] at hIndex
    exact False.elim (hIndex (Nat.le_zero.mp hBound))

/-- A constant takes its entries behind all others. -/
theorem entries_append (p : ConstantPool) (index : PoolIndex) (c : Constant) :
    (p.append index c).entries.toList = p.entries.toList ++ c.slots := by
  rcases c.width_eq with hWidth | hWidth <;> simp [append, Constant.slots, hWidth]

theorem size_append (p : ConstantPool) (index : PoolIndex) (c : Constant) :
    (p.append index c).size = p.size + c.width := by
  rw [size, ← Array.length_toList, entries_append, List.length_append, Constant.length_slots,
    Array.length_toList, size]

/-- Only the next index holds something new. All indices that were handed
out keep their meaning. -/
theorem get_append {next : PoolIndex} : (p.append next c).get index = .ok d ↔
    p.get index = .ok d ∨ index.toNat = p.size + 1 ∧ d = c := by
  rw [get_eq_ok_iff, get_eq_ok_iff, ← Array.getElem?_toList, entries_append, List.getElem?_append,
    Array.length_toList, Array.getElem?_toList, ne_eq, ← UInt16.toNat_inj]
  show ¬ index.toNat = 0 ∧ _ ↔ _
  split
  · next hOld =>
      have hIndex : index.toNat ≠ p.size + 1 := by
        rw [size]
        omega
      simp only [hIndex, false_and, or_false]
      rfl
  · next hNew =>
      have hNone : p.entries[index.toNat - 1]? = none :=
        Array.getElem?_eq_none (Nat.le_of_not_lt hNew)
      rw [Constant.getElem?_slots, hNone, size]
      simp only [reduceCtorEq, and_false, false_or]
      constructor
      · rintro ⟨hPos, hFirst, hSame⟩
        exact ⟨by omega, hSame⟩
      · rintro ⟨hIndex, hSame⟩
        exact ⟨by omega, by omega, hSame⟩

/-- An index that held nothing still holds nothing, unless it is the next
one. -/
theorem get_append_eq_error {next : PoolIndex}
    (hNone : p.get index = .error (.constantNotFound index)) (hOther : index.toNat ≠ p.size + 1) :
    (p.append next c).get index = .error (.constantNotFound index) := by
  rw [get_eq_error_iff] at hNone ⊢
  intro d hd
  rcases get_append.mp hd with hOld | ⟨hIndex, -⟩
  · exact hNone d hOld
  · exact hOther hIndex

/-- Nothing stands behind the last entry. -/
theorem get_of_size_lt (h : p.size < index.toNat) :
    p.get index = .error (.constantNotFound index) := by
  rw [get_eq_error_iff]
  intro d hd
  exact Nat.not_le_of_gt h (toNat_le_of_get hd)

theorem toNat_nextIndex (hRoom : p.size < capacity) : p.nextIndex.toNat = p.size + 1 := by
  rw [capacity] at hRoom
  exact Nat.mod_eq_of_lt (by omega)

/-- Behind an index that is not the last one stands the next number. -/
theorem toNat_succ (h : index.toNat < capacity) : (index + 1).toNat = index.toNat + 1 := by
  rw [capacity] at h
  exact Nat.mod_eq_of_lt (by simp; omega)

theorem toNat_pred (h : index ≠ 0) : (index - 1).toNat + 1 = index.toNat := by
  rw [ne_eq, ← UInt16.toNat_inj] at h
  have hPos : 1 ≤ index := by
    rw [UInt16.le_iff_toNat_le]
    exact Nat.pos_of_ne_zero h
  rw [UInt16.toNat_sub_of_le _ _ hPos]
  exact Nat.sub_add_cancel (Nat.pos_of_ne_zero h)

/-- Only a text changes the index of texts, and only for itself. -/
theorem texts_append (p : ConstantPool) (index : PoolIndex) (c : Constant) (text : String) :
    (p.append index c).texts[text]? =
      if c = .utf8 text then some index else p.texts[text]? := by
  unfold append
  cases c with
  | utf8 added => simp [Std.HashMap.getElem?_insert]
  | _ => simp

/-- A constant that is not in the pool yet may be added, if there is room
for it. Each part of the invariant looks at the new entry and at the others
apart. -/
theorem Interned.append (h : p.Interned) (hNew : ∀ i d, p.get i = .ok d → ¬ d.same c = true)
    (hRoom : p.size + c.width ≤ capacity) : (p.append p.nextIndex c).Interned := by
  have hWidth := c.width_eq
  have hNext : p.nextIndex.toNat = p.size + 1 := toNat_nextIndex (by omega)
  constructor
  case bounded =>
    rw [size_append]
    exact hRoom
  case texts =>
    intro text index
    rw [get_append, texts_append]
    split
    · next hText =>
        have hUnknown : ¬ p.get index = .ok (.utf8 text) := by
          intro hHeld
          exact hNew index _ hHeld (hText ▸ Constant.same_utf8_iff.mpr rfl)
        rw [Option.some_inj, ← UInt16.toNat_inj, hNext]
        simp only [hUnknown, hText, and_true, false_or]
        exact eq_comm
    · next hOther =>
        rw [h.texts]
        simp only [Ne.symm hOther, and_false, or_false]
  case distinct =>
    intro i j d e hi hj hSame
    rw [get_append] at hi hj
    rcases hi with hi | ⟨hi, rfl⟩
    · rcases hj with hj | ⟨hj, rfl⟩
      · exact h.distinct i j d e hi hj hSame
      · exact False.elim (hNew i d hi hSame)
    · rcases hj with hj | ⟨hj, rfl⟩
      · exact False.elim (hNew j e hj (Constant.same_symm hSame))
      · exact UInt16.toNat_inj.mp (hi.trans hj.symm)
  case padded =>
    intro index d hd hWide
    have hBounded := h.bounded
    rw [size_append]
    rcases get_append.mp hd with hd | ⟨hd, rfl⟩
    · obtain ⟨hInside, hEmpty⟩ := h.padded index d hd hWide
      have hSucc : (index + 1).toNat = index.toNat + 1 := toNat_succ (by omega)
      exact ⟨by omega, get_append_eq_error hEmpty (by omega)⟩
    · have hSucc : (index + 1).toNat = index.toNat + 1 := toNat_succ (by omega)
      exact ⟨by omega, get_append_eq_error (get_of_size_lt (by omega)) (by omega)⟩
  case filled =>
    intro index hIndex hInside
    rw [size_append] at hInside
    have hPred := toNat_pred hIndex
    simp only [get_append]
    by_cases hOld : index.toNat ≤ p.size
    · rcases h.filled index hIndex hOld with ⟨d, hd⟩ | ⟨d, hd, hWide⟩
      · exact .inl ⟨d, .inl hd⟩
      · exact .inr ⟨d, .inl hd, hWide⟩
    · by_cases hFirst : index.toNat = p.size + 1
      · exact .inl ⟨c, .inr ⟨hFirst, rfl⟩⟩
      · exact .inr ⟨c, .inr ⟨by omega, rfl⟩, by omega⟩

/-- Below the capacity no position is cut off when it becomes an index. This
is where sixteen bits are enough. -/
theorem get_toUInt16 {i : Nat} (hBound : i < capacity) :
    p.get (i.toUInt16 + 1) = .ok c ↔ p.entries[i]? = some (some c) := by
  rw [capacity] at hBound
  have hSmall : i % 65536 = i := Nat.mod_eq_of_lt (by omega)
  have hIndex : (i.toUInt16 + 1).toNat = i + 1 := by
    show (i % 65536 + 1) % 65536 = i + 1
    rw [hSmall]
    exact Nat.mod_eq_of_lt (by omega)
  rw [get_eq_ok_iff, hIndex, ne_eq, ← UInt16.toNat_inj, hIndex]
  simp

/-- What the search finds is in the pool, and shares with the constant that
was searched for. -/
theorem get_of_findIdx? (h : p.Interned) {i : Nat}
    (hFind : p.entries.findIdx? (fun entry => entry.any (·.same c)) = some i) :
    ∃ d, p.get (i.toUInt16 + 1) = .ok d ∧ d.same c = true := by
  obtain ⟨hi, hAny, -⟩ := Array.findIdx?_eq_some_iff_getElem.mp hFind
  obtain ⟨d, hEntry, hSame⟩ := (Option.any_eq_true _ _).mp hAny
  have hBound : i < capacity := Nat.lt_of_lt_of_le hi h.bounded
  refine ⟨d, (get_toUInt16 hBound).mpr ?_, hSame⟩
  rw [Array.getElem?_eq_getElem hi, hEntry]

/-- The search finds the constants that are in the pool, each at its own
index. Texts are found by their index, and all others by looking at every
entry. -/
theorem find?_eq_some_iff (h : p.Interned) :
    p.find? c = some index ↔ ∃ d, p.get index = .ok d ∧ d.same c = true := by
  unfold find?
  split
  · next text =>
      rw [h.texts]
      simp only [Constant.same_utf8_iff]
      constructor
      · intro hHeld
        exact ⟨_, hHeld, rfl⟩
      · rintro ⟨d, hHeld, rfl⟩
        exact hHeld
  · rw [Option.map_eq_some_iff]
    constructor
    · rintro ⟨i, hFind, rfl⟩
      exact get_of_findIdx? h hFind
    · rintro ⟨d, hHeld, hSame⟩
      cases hFind : p.entries.findIdx? fun entry => entry.any (·.same c) with
      | none =>
          obtain ⟨-, hEntry⟩ := get_eq_ok_iff.mp hHeld
          have hNone := Array.findIdx?_eq_none_iff.mp hFind _ (Array.mem_of_getElem? hEntry)
          simp [hSame] at hNone
      | some i =>
          obtain ⟨e, hFound, hOther⟩ := get_of_findIdx? h hFind
          have hSameEntry := Constant.same_trans hOther (Constant.same_symm hSame)
          exact ⟨i, rfl, h.distinct _ _ e d hFound hHeld hSameEntry⟩

/-- All that a push can do: it finds the constant, adds it, or refuses it
for want of room. What follows about pushes is read off these three
cases. -/
theorem push_cases (h : p.Interned) (c : Constant) :
    (∃ index d, p.get index = .ok d ∧ d.same c = true ∧ push c p = (.ok index, p)) ∨
    (∀ i d, p.get i = .ok d → ¬ d.same c = true) ∧
      (p.size + c.width ≤ capacity ∧ push c p = (.ok p.nextIndex, p.append p.nextIndex c) ∨
        capacity < p.size + c.width ∧ push c p = (.error .constantPoolOverflow, p)) := by
  unfold push
  cases hFind : p.find? c with
  | some index =>
      obtain ⟨d, hHeld, hSame⟩ := (find?_eq_some_iff h).mp hFind
      exact .inl ⟨index, d, hHeld, hSame, rfl⟩
  | none =>
      refine .inr ⟨?_, ?_⟩
      · intro i d hHeld hSame
        rw [(find?_eq_some_iff h).mpr ⟨d, hHeld, hSame⟩] at hFind
        cases hFind
      · by_cases hRoom : p.size + c.width ≤ capacity
        · exact .inl ⟨hRoom, by simp [nextIndex?_eq, hRoom]⟩
        · exact .inr ⟨Nat.lt_of_not_le hRoom, by simp [nextIndex?_eq, hRoom]⟩

/-- A constant that shares with an entry gets the index of the entry, and
nothing is added. -/
theorem push_of_same (h : p.Interned) (hHeld : p.get index = .ok d) (hSame : d.same c = true) :
    push c p = (.ok index, p) := by
  rw [push, (find?_eq_some_iff h).mpr ⟨d, hHeld, hSame⟩]

/-- A push is refused just if the constant is new and there is no room for
it. -/
theorem push_overflow_iff (h : p.Interned) : (push c p).1 = .error .constantPoolOverflow ↔
    (∀ i d, p.get i = .ok d → ¬ d.same c = true) ∧ capacity < p.size + c.width := by
  rcases push_cases h c with
    ⟨index, d, hHeld, hSame, hPush⟩ | ⟨hNew, ⟨hRoom, hPush⟩ | ⟨hFull, hPush⟩⟩
  · rw [hPush]
    exact iff_of_false nofun fun hOverflow => hOverflow.1 index d hHeld hSame
  · rw [hPush]
    exact iff_of_false nofun fun hOverflow => Nat.not_lt.mpr hRoom hOverflow.2
  · rw [hPush]
    exact iff_of_true rfl ⟨hNew, hFull⟩

/-- A push that fails leaves the pool as it was. Lack of room is the only
reason. -/
theorem push_error {e : ClassFileError} (h : p.Interned) (hError : (push c p).1 = .error e) :
    e = .constantPoolOverflow ∧ (push c p).2 = p := by
  rcases push_cases h c with ⟨index, d, -, -, hPush⟩ | ⟨-, ⟨-, hPush⟩ | ⟨-, hPush⟩⟩
  · rw [hPush] at hError
    cases hError
  · rw [hPush] at hError
    cases hError
  · rw [hPush] at hError ⊢
    cases hError
    exact ⟨rfl, rfl⟩

theorem get_nextIndex (hRoom : p.size + c.width ≤ capacity) :
    (p.append p.nextIndex c).get p.nextIndex = .ok c := by
  have hWidth := c.width_eq
  exact get_append.mpr (.inr ⟨toNat_nextIndex (by omega), rfl⟩)

/-- The index that a push gives holds the constant itself, or one that it
shares with. -/
theorem push_ok (h : p.Interned) (hOk : (push c p).1 = .ok index) :
    ∃ d, (push c p).2.get index = .ok d ∧ (d = c ∨ d.same c = true) := by
  rcases push_cases h c with
    ⟨held, d, hHeld, hSame, hPush⟩ | ⟨-, ⟨hRoom, hPush⟩ | ⟨-, hPush⟩⟩
  · rw [hPush] at hOk ⊢
    cases hOk
    exact ⟨d, hHeld, .inr hSame⟩
  · rw [hPush] at hOk ⊢
    cases hOk
    exact ⟨c, get_nextIndex hRoom, .inl rfl⟩
  · rw [hPush] at hOk
    cases hOk

/-- An operation that succeeds hands its pool on. -/
theorem run_bind_ok {α β : Type} {x : PoolM α} {f : α → PoolM β} {p q : ConstantPool} {a : α}
    (h : x p = (.ok a, q)) : (x >>= f) p = f a q := by
  simp only [Bind.bind, ExceptT.bind, ExceptT.mk, StateT.bind, h]
  rfl

/-- An operation that fails keeps what it did to the pool before. It is not
undone. -/
theorem run_bind_error {α β : Type} {x : PoolM α} {f : α → PoolM β} {p q : ConstantPool}
    {e : ClassFileError} (h : x p = (.error e, q)) : (x >>= f) p = (.error e, q) := by
  simp only [Bind.bind, ExceptT.bind, ExceptT.mk, StateT.bind, h]
  rfl

/-- The index holds a constant. It is what a push promises of the index that
it returns. -/
def Designates (index : PoolIndex) (p : ConstantPool) : Prop := ∃ c, p.get index = .ok c

/-- An operation keeps a pool interned and adds to it at the end only,
whether it succeeds or not. An index that it gives holds a constant. This is
what is asked of every step of a run. -/
def Sound (x : PoolM PoolIndex) : Prop :=
  ∀ p : ConstantPool, p.Interned → (x p).2.Interned ∧
    p.entries.toList <+: (x p).2.entries.toList ∧
    ∀ index, (x p).1 = .ok index → Designates index (x p).2

/-- Operations one after the other are sound if each is. The second one may
fail after the first one added something, which stays. -/
theorem Sound.bind {x : PoolM PoolIndex} {f : PoolIndex → PoolM PoolIndex} (hFirst : Sound x)
    (hNext : ∀ index, Sound (f index)) : Sound (x >>= f) := by
  intro p hp
  obtain ⟨hInterned, hPrefix, -⟩ := hFirst p hp
  cases hRun : x p with
  | mk outcome q =>
      rw [hRun] at hInterned hPrefix
      cases outcome with
      | ok index =>
          obtain ⟨hFinal, hLonger, hDesignates⟩ := hNext index q hInterned
          rw [run_bind_ok hRun]
          exact ⟨hFinal, hPrefix.trans hLonger, hDesignates⟩
      | error e =>
          rw [run_bind_error hRun]
          exact ⟨hInterned, hPrefix, nofun⟩

/-- A push is sound in each of its three cases: the constant is there, is
added, or has no room. -/
theorem push_sound (c : Constant) : Sound (push c) := by
  intro p hp
  rw [← and_assoc]
  constructor
  · rcases push_cases hp c with ⟨index, d, -, -, hPush⟩ | ⟨hNew, ⟨hRoom, hPush⟩ | ⟨-, hPush⟩⟩
    · rw [hPush]
      exact ⟨hp, List.prefix_rfl⟩
    · rw [hPush, entries_append]
      exact ⟨hp.append hNew hRoom, List.prefix_append _ _⟩
    · rw [hPush]
      exact ⟨hp, List.prefix_rfl⟩
  · intro index hOk
    obtain ⟨d, hHeld, -⟩ := push_ok hp hOk
    exact ⟨d, hHeld⟩

theorem pushClass_sound (name : String) : Sound (pushClass name) :=
  (push_sound _).bind fun _ => push_sound _

theorem pushNameAndType_sound (name descriptor : String) :
    Sound (pushNameAndType name descriptor) :=
  (push_sound _).bind fun _ => (push_sound _).bind fun _ => push_sound _

/-- What stands in front of a longer table keeps its indices. -/
theorem get_of_prefix {q : ConstantPool} (h : p.entries.toList <+: q.entries.toList)
    (hHeld : p.get index = .ok c) : q.get index = .ok c := by
  obtain ⟨added, hAdded⟩ := h
  rw [get_eq_ok_iff, ← Array.getElem?_toList] at hHeld ⊢
  refine ⟨hHeld.1, ?_⟩
  obtain ⟨hBound, -⟩ := List.getElem?_eq_some_iff.mp hHeld.2
  rw [← hAdded, List.getElem?_append_left hBound]
  exact hHeld.2

end ConstantPool

/-- A push into a pool, of a constant or of all that a reference is made
of. -/
inductive PoolOp where
  | constant (c : Constant)
  | text (s : String)
  | classRef (name : String)
  | string (s : String)
  | nameAndType (name descriptor : String)
  | methodRef (owner name descriptor : String) (isInterface : Bool)
  | invokeDynamic (bootstrap : UInt16) (name descriptor : String)
deriving DecidableEq, Repr

/-- What a push does to a pool. All of them are made of pushes of single
constants. -/
def PoolOp.push : PoolOp → PoolM PoolIndex
  | constant c => ConstantPool.push c
  | text s => ConstantPool.pushText s
  | classRef name => ConstantPool.pushClass name
  | string s => ConstantPool.pushString s
  | nameAndType name descriptor => ConstantPool.pushNameAndType name descriptor
  | methodRef owner name descriptor isInterface =>
    ConstantPool.pushMethodRef owner name descriptor isInterface
  | invokeDynamic bootstrap name descriptor =>
    ConstantPool.pushInvokeDynamic bootstrap name descriptor

/-- Every push is sound, as it is made of sound ones. A part that was added
stays, even if a later part is refused. -/
theorem PoolOp.push_sound (op : PoolOp) : ConstantPool.Sound op.push := by
  cases op with
  | constant c => exact ConstantPool.push_sound c
  | text s => exact ConstantPool.push_sound _
  | classRef name => exact ConstantPool.pushClass_sound name
  | string s => exact (ConstantPool.push_sound _).bind fun _ => ConstantPool.push_sound _
  | nameAndType name descriptor => exact ConstantPool.pushNameAndType_sound name descriptor
  | methodRef owner name descriptor isInterface =>
      exact (ConstantPool.pushClass_sound owner).bind fun _ =>
        (ConstantPool.pushNameAndType_sound name descriptor).bind fun _ => ConstantPool.push_sound _
  | invokeDynamic bootstrap name descriptor =>
      exact (ConstantPool.pushNameAndType_sound name descriptor).bind fun _ =>
        ConstantPool.push_sound _

namespace ConstantPool

/-- The pool after some pushes, those that failed included. -/
def pushAll (p : ConstantPool) (ops : List PoolOp) : ConstantPool :=
  ops.foldl (fun p op => (op.push p).2) p

/-- Any number of pushes keeps a pool interned and only adds to it. The
induction is on the pushes, one sound step after the other. -/
theorem pushAll_sound {p : ConstantPool} (hp : p.Interned) (ops : List PoolOp) :
    (p.pushAll ops).Interned ∧ p.entries.toList <+: (p.pushAll ops).entries.toList := by
  induction ops generalizing p with
  | nil => exact ⟨hp, List.prefix_rfl⟩
  | cons op rest ih =>
      obtain ⟨hInterned, hPrefix, -⟩ := op.push_sound p hp
      obtain ⟨hFinal, hLonger⟩ := ih hInterned
      exact ⟨hFinal, hPrefix.trans hLonger⟩

/-- After any pushes the pool is interned. Every further push adds to it at
the end only, so that an index keeps its constant. A constant that is there
already is found where it stands, and one that is not is refused just if
there is no room for it. -/
theorem pushAll_interns {history : List PoolOp} {p : ConstantPool} (h : pushAll {} history = p) :
    p.Interned ∧
    (∀ index c, p.get index = .ok c → ∀ later, (p.pushAll later).get index = .ok c) ∧
    (∀ op : PoolOp, p.entries.toList <+: (op.push p).2.entries.toList ∧
      ∀ index, (op.push p).1 = .ok index →
        ∃ c, ∀ later, ((op.push p).2.pushAll later).get index = .ok c) ∧
    ∀ c : Constant,
      ((push c p).1 = .error .constantPoolOverflow ↔
        (∀ i d, p.get i = .ok d → ¬ d.same c = true) ∧ capacity < p.size + c.width) ∧
      (∀ e, (push c p).1 = .error e → e = .constantPoolOverflow ∧ (push c p).2 = p) ∧
      (∀ index, (push c p).1 = .ok index →
        ∃ d, (push c p).2.get index = .ok d ∧ (d = c ∨ d.same c = true)) ∧
      ∀ index d, p.get index = .ok d → d.same c = true → push c p = (.ok index, p) := by
  have hp : p.Interned := h ▸ (pushAll_sound interned_empty history).1
  refine ⟨hp, ?_, ?_, ?_⟩
  · intro index c hHeld later
    exact get_of_prefix (pushAll_sound hp later).2 hHeld
  · intro op
    obtain ⟨hInterned, hPrefix, hDesignates⟩ := op.push_sound p hp
    refine ⟨hPrefix, ?_⟩
    intro index hOk
    obtain ⟨c, hHeld⟩ := hDesignates index hOk
    exact ⟨c, fun later => get_of_prefix (pushAll_sound hInterned later).2 hHeld⟩
  · intro c
    exact ⟨push_overflow_iff hp, fun e => push_error hp, fun index => push_ok hp,
      fun index d => push_of_same hp⟩

/-- A wide constant takes two indices, and the negative zero shares the
entry of the other. -/
theorem zeros_interned :
    ∃ p, pushAll {} [.constant (.double ⟨0⟩)] = p ∧ p.get 1 = .ok (.double ⟨0⟩) ∧
      p.get 2 = .error (.constantNotFound 2) ∧
      push (.double ⟨0x8000000000000000⟩) p = (.ok 1, p) ∧
      ∀ later, (p.pushAll later).get 1 = .ok (.double ⟨0⟩) := by
  have hPool : pushAll {} [.constant (.double ⟨0⟩)] = ⟨#[some (.double ⟨0⟩), none], {}⟩ := by
    simp [pushAll, PoolOp.push, push, find?, nextIndex?_eq, append, Constant.width, capacity, size]
  obtain ⟨hInterned, hStable, -, hPush⟩ := pushAll_interns hPool
  have hHeld : (⟨#[some (.double ⟨0⟩), none], {}⟩ : ConstantPool).get 1 = .ok (.double ⟨0⟩) := rfl
  obtain ⟨-, -, -, hShared⟩ := hPush (.double ⟨0x8000000000000000⟩)
  exact ⟨_, hPool, hHeld, (hInterned.padded 1 _ hHeld rfl).2, hShared 1 _ hHeld (by decide),
    hStable 1 _ hHeld⟩

end ConstantPool

end JvmCalls
