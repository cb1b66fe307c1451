import JvmCalls.Proofs.ClassFile.Interning
import JvmCalls.Proofs.Except
import Mathlib

/-! Symbolic references. A reference is a constant whose parts are other
constants, given by their indices, and every part is shared with all
references that have it too. Reading follows the indices. As a pool holds
each constant once and keeps it where it stands, a reference is read as it
was written, whatever is pushed later, and its index stands for it alone. -/
namespace JvmCalls

namespace Constant

/-- The constant is no floating-point number, so that it is shared just if
it is equal. -/
def IsSymbolic (c : Constant) : Prop := (∀ a, c ≠ .float a) ∧ ∀ a, c ≠ .double a

/-- Where no floating-point number is concerned, sharing loses nothing. -/
theorem same_iff_eq {c d : Constant} (h : d.IsSymbolic) : c.same d = true ↔ c = d := by
  rw [same_eq_true_iff]
  constructor
  · rintro (⟨_, b, _, hd, _⟩ | ⟨_, b, _, hd, _⟩ | ⟨hSame, _⟩)
    · exact False.elim (h.1 b hd)
    · exact False.elim (h.2 b hd)
    · exact hSame
  · rintro rfl
    exact .inr (.inr ⟨rfl, h⟩)

end Constant

/-- The constant of a method reference, given the indices of its parts. -/
def MethodRef.constant (r : MethodRef) (owner nameAndType : PoolIndex) : Constant :=
  if r.isInterface then .interfaceMethodRef owner nameAndType else .methodRef owner nameAndType

theorem MethodRef.isSymbolic_constant (r : MethodRef) (owner nameAndType : PoolIndex) :
    (r.constant owner nameAndType).IsSymbolic := by
  unfold constant
  split
  · exact ⟨nofun, nofun⟩
  · exact ⟨nofun, nofun⟩

namespace ConstantPool

variable {p q : ConstantPool} {c : Constant} {k : PoolIndex} {α : Type}

/-- A constant that is no floating-point number is kept as it was pushed. -/
theorem get_of_push (h : p.Interned) (hSymbolic : c.IsSymbolic) (hOk : (push c p).1 = .ok k) :
    (push c p).2.get k = .ok c := by
  obtain ⟨d, hHeld, hSame⟩ := push_ok h hOk
  rw [Constant.same_iff_eq hSymbolic, or_self] at hSame
  rw [hHeld, hSame]

/-- A constant that is in the pool already is found where it stands. -/
theorem push_of_get (h : p.Interned) (hSymbolic : c.IsSymbolic) (hHeld : p.get k = .ok c) :
    push c p = (.ok k, p) :=
  push_of_same h hHeld ((Constant.same_iff_eq hSymbolic).mpr rfl)

/-- What reading a text asks of the pool. -/
theorem text_eq_ok_iff {s : String} : p.text k = .ok s ↔ p.get k = .ok (.utf8 s) := by
  rw [text, bind_eq_ok_iff]
  constructor
  · rintro ⟨c, hHeld, hText⟩
    cases c with
    | utf8 t =>
        cases hText
        exact hHeld
    | _ => cases hText
  · intro hHeld
    exact ⟨_, hHeld, rfl⟩

/-- Reading the name of a class follows one index. -/
theorem className_eq_ok_iff {s : String} :
    p.className k = .ok s ↔ ∃ i, p.get k = .ok (.classRef i) ∧ p.text i = .ok s := by
  rw [className, bind_eq_ok_iff]
  constructor
  · rintro ⟨c, hHeld, hName⟩
    cases c with
    | classRef i => exact ⟨i, hHeld, hName⟩
    | _ => cases hName
  · rintro ⟨i, hHeld, hName⟩
    exact ⟨_, hHeld, hName⟩

/-- Reading a name and a descriptor follows two indices, which may be the
same. -/
theorem nameAndType_eq_ok_iff {x : String × String} :
    p.nameAndType k = .ok x ↔
      ∃ i j, p.get k = .ok (.nameAndType i j) ∧ p.text i = .ok x.1 ∧ p.text j = .ok x.2 := by
  rw [nameAndType, bind_eq_ok_iff]
  constructor
  · rintro ⟨c, hHeld, hParts⟩
    cases c with
    | nameAndType i j =>
        obtain ⟨name, hName, hParts⟩ := bind_eq_ok_iff.mp hParts
        obtain ⟨descriptor, hDescriptor, hParts⟩ := bind_eq_ok_iff.mp hParts
        cases hParts
        exact ⟨i, j, hHeld, hName, hDescriptor⟩
    | _ => cases hParts
  · rintro ⟨i, j, hHeld, hName, hDescriptor⟩
    exact ⟨_, hHeld, bind_eq_ok_iff.mpr ⟨_, hName, bind_eq_ok_iff.mpr ⟨_, hDescriptor, rfl⟩⟩⟩

/-- Reading a method reference follows the indices of its owner and of its
name and descriptor. The constant itself tells whether the method is one of
an interface. -/
theorem methodRef_eq_ok_iff {r : MethodRef} :
    p.methodRef k = .ok r ↔ ∃ i j, p.get k = .ok (r.constant i j) ∧
      p.className i = .ok r.owner ∧ p.nameAndType j = .ok (r.name, r.descriptor) := by
  rw [methodRef, bind_eq_ok_iff]
  constructor
  · rintro ⟨c, hHeld, hParts⟩
    cases c with
    | methodRef i j =>
        obtain ⟨x, hNameAndType, hParts⟩ := bind_eq_ok_iff.mp hParts
        obtain ⟨owner, hOwner, hParts⟩ := bind_eq_ok_iff.mp hParts
        cases hParts
        exact ⟨i, j, hHeld, hOwner, hNameAndType⟩
    | interfaceMethodRef i j =>
        obtain ⟨x, hNameAndType, hParts⟩ := bind_eq_ok_iff.mp hParts
        obtain ⟨owner, hOwner, hParts⟩ := bind_eq_ok_iff.mp hParts
        cases hParts
        exact ⟨i, j, hHeld, hOwner, hNameAndType⟩
    | _ => cases hParts
  · rintro ⟨i, j, hHeld, hOwner, hNameAndType⟩
    refine ⟨_, hHeld, ?_⟩
    obtain ⟨owner, name, descriptor, isInterface⟩ := r
    cases isInterface with
    | false =>
        exact bind_eq_ok_iff.mpr ⟨_, hNameAndType, bind_eq_ok_iff.mpr ⟨_, hOwner, rfl⟩⟩
    | true =>
        exact bind_eq_ok_iff.mpr ⟨_, hNameAndType, bind_eq_ok_iff.mpr ⟨_, hOwner, rfl⟩⟩

theorem invokeDynamic_eq_ok_iff {x : String × String} :
    p.invokeDynamic k = .ok x ↔
      ∃ b i, p.get k = .ok (.invokeDynamic b i) ∧ p.nameAndType i = .ok x := by
  rw [invokeDynamic, bind_eq_ok_iff]
  constructor
  · rintro ⟨c, hHeld, hParts⟩
    cases c with
    | invokeDynamic b i => exact ⟨b, i, hHeld, hParts⟩
    | _ => cases hParts
  · rintro ⟨b, i, hHeld, hParts⟩
    exact ⟨_, hHeld, hParts⟩

/-- What was read once is read again when the pool has grown. Reading what
could not be read before may succeed then, as its parts may have come. -/
def Lasting (read : ConstantPool → PoolIndex → Except ClassFileError α) : Prop :=
  ∀ (p q : ConstantPool) k a, p.entries.toList <+: q.entries.toList → read p k = .ok a →
    read q k = .ok a

theorem text_lasting : Lasting text := by
  intro p q k s hGrown hRead
  rw [text_eq_ok_iff] at hRead ⊢
  exact get_of_prefix hGrown hRead

theorem className_lasting : Lasting className := by
  intro p q k s hGrown hRead
  obtain ⟨i, hHeld, hName⟩ := className_eq_ok_iff.mp hRead
  exact className_eq_ok_iff.mpr ⟨i, get_of_prefix hGrown hHeld, text_lasting p q i s hGrown hName⟩

theorem nameAndType_lasting : Lasting nameAndType := by
  intro p q k x hGrown hRead
  obtain ⟨i, j, hHeld, hName, hDescriptor⟩ := nameAndType_eq_ok_iff.mp hRead
  exact nameAndType_eq_ok_iff.mpr ⟨i, j, get_of_prefix hGrown hHeld,
    text_lasting p q i _ hGrown hName, text_lasting p q j _ hGrown hDescriptor⟩

/-- All parts of a reference last, and so does the reference. -/
theorem methodRef_lasting : Lasting methodRef := by
  intro p q k r hGrown hRead
  obtain ⟨i, j, hHeld, hOwner, hNameAndType⟩ := methodRef_eq_ok_iff.mp hRead
  exact methodRef_eq_ok_iff.mpr ⟨i, j, get_of_prefix hGrown hHeld,
    className_lasting p q i _ hGrown hOwner, nameAndType_lasting p q j _ hGrown hNameAndType⟩

theorem invokeDynamic_lasting : Lasting invokeDynamic := by
  intro p q k x hGrown hRead
  obtain ⟨b, i, hHeld, hNameAndType⟩ := invokeDynamic_eq_ok_iff.mp hRead
  exact invokeDynamic_eq_ok_iff.mpr ⟨b, i, get_of_prefix hGrown hHeld,
    nameAndType_lasting p q i x hGrown hNameAndType⟩

/-- An index that the operation gives is read as this value, where the
operation ends. -/
structure Writes (read : ConstantPool → PoolIndex → Except ClassFileError α) (x : PoolM PoolIndex)
    (a : α) : Prop where
  sound : Sound x
  written : ∀ p k, p.Interned → (x p).1 = .ok k → read (x p).2 k = .ok a

/-- Besides, the operation changes nothing where the value can be read
already. So the value has one index. -/
structure Interns (read : ConstantPool → PoolIndex → Except ClassFileError α) (x : PoolM PoolIndex)
    (a : α) : Prop extends Writes read x a where
  shared : ∀ p k, p.Interned → read p k = .ok a → x p = (.ok k, p)

section Writes

variable {read : ConstantPool → PoolIndex → Except ClassFileError α} {x : PoolM PoolIndex} {a : α}

/-- An operation that succeeds has written its first part, which can still
be read when the others are done. -/
theorem Writes.first (hx : Writes read x a) (hLasting : Lasting read)
    {f : PoolIndex → PoolM PoolIndex} (hRest : ∀ i, Sound (f i)) (hp : p.Interned)
    (hOk : ((x >>= f) p).1 = .ok k) :
    ∃ i q, q.Interned ∧ (x >>= f) p = f i q ∧ read (f i q).2 i = .ok a := by
  cases hRun : x p with
  | mk outcome q =>
      cases outcome with
      | error e =>
          rw [run_bind_error hRun] at hOk
          cases hOk
      | ok i =>
          obtain ⟨hInterned, -⟩ := hx.sound p hp
          have hRead := hx.written p i hp (by rw [hRun])
          rw [hRun] at hInterned hRead
          obtain ⟨-, hGrown, -⟩ := hRest i q hInterned
          exact ⟨i, q, hInterned, run_bind_ok hRun, hLasting q _ i a hGrown hRead⟩

/-- What was written is read after any further pushes. -/
theorem Writes.read_pushAll (hx : Writes read x a) (hLasting : Lasting read) (hp : p.Interned)
    (hOk : (x p).1 = .ok k) (later : List PoolOp) : read ((x p).2.pushAll later) k = .ok a := by
  obtain ⟨hInterned, -⟩ := hx.sound p hp
  exact hLasting _ _ k a (pushAll_sound hInterned later).2 (hx.written p k hp hOk)

/-- An index stands for one value, and a value for one index. Whatever is
pushed between the two operations, the first value can still be read where
the second is written. -/
theorem Interns.index_eq_iff {y : PoolM PoolIndex} {b : α} {k' : PoolIndex}
    (hx : Interns read x a) (hy : Interns read y b) (hLasting : Lasting read) (hp : p.Interned)
    (between : List PoolOp) (hFirst : (x p).1 = .ok k)
    (hSecond : (y ((x p).2.pushAll between)).1 = .ok k') : k = k' ↔ a = b := by
  have hRead := hx.read_pushAll hLasting hp hFirst between
  have hInterned := (pushAll_sound (hx.sound p hp).1 between).1
  generalize (x p).2.pushAll between = q at hRead hInterned hSecond
  constructor
  · rintro rfl
    have hOld := hLasting q _ k a (hy.sound q hInterned).2.1 hRead
    have hNew := hy.written q k hInterned hSecond
    exact Except.ok.inj (hOld.symm.trans hNew)
  · rintro rfl
    rw [hy.shared q k hInterned hRead] at hSecond
    exact Except.ok.inj hSecond

end Writes

/-- A text is read as it was written and is written once. -/
theorem pushText_interns (s : String) : Interns text (pushText s) s where
  sound := push_sound _
  written _ _ hp hOk := text_eq_ok_iff.mpr (get_of_push hp ⟨nofun, nofun⟩ hOk)
  shared _ _ hp hRead := push_of_get hp ⟨nofun, nofun⟩ (text_eq_ok_iff.mp hRead)

/-- A class is interned, as its name is. The entry of the class can be told
by the index of its name. -/
theorem pushClass_interns (name : String) : Interns className (pushClass name) name where
  sound := pushClass_sound name
  written p k hp hOk := by
    obtain ⟨i, q, hq, hRun, hName⟩ := (pushText_interns name).first text_lasting
      (fun _ => push_sound _) hp hOk
    rw [pushClass, hRun] at hOk ⊢
    exact className_eq_ok_iff.mpr ⟨i, get_of_push hq ⟨nofun, nofun⟩ hOk, hName⟩
  shared p k hp hRead := by
    obtain ⟨i, hHeld, hName⟩ := className_eq_ok_iff.mp hRead
    rw [pushClass, run_bind_ok ((pushText_interns name).shared p i hp hName)]
    exact push_of_get hp ⟨nofun, nofun⟩ hHeld

/-- A name and a descriptor are interned together, as both texts are. The
first text can still be read when the second is written. -/
theorem pushNameAndType_interns (name descriptor : String) :
    Interns nameAndType (pushNameAndType name descriptor) (name, descriptor) where
  sound := pushNameAndType_sound name descriptor
  written p k hp hOk := by
    obtain ⟨i, q, hq, hRun, hName⟩ := (pushText_interns name).first text_lasting
      (fun _ => (pushText_interns descriptor).sound.bind fun _ => push_sound _) hp hOk
    rw [pushNameAndType, hRun] at hOk ⊢
    obtain ⟨j, q', hq', hRun', hDescriptor⟩ := (pushText_interns descriptor).first text_lasting
      (fun _ => push_sound _) hq hOk
    rw [hRun'] at hOk hName ⊢
    exact nameAndType_eq_ok_iff.mpr
      ⟨i, j, get_of_push hq' ⟨nofun, nofun⟩ hOk, hName, hDescriptor⟩
  shared p k hp hRead := by
    obtain ⟨i, j, hHeld, hName, hDescriptor⟩ := nameAndType_eq_ok_iff.mp hRead
    rw [pushNameAndType, run_bind_ok ((pushText_interns name).shared p i hp hName),
      run_bind_ok ((pushText_interns descriptor).shared p j hp hDescriptor)]
    exact push_of_get hp ⟨nofun, nofun⟩ hHeld

/-- Writes a method reference. -/
def pushRef (r : MethodRef) : PoolM PoolIndex :=
  pushMethodRef r.owner r.name r.descriptor r.isInterface

/-- A method reference is interned, as its two parts are. The kind of entry
tells interface methods from others. -/
theorem pushRef_interns (r : MethodRef) : Interns methodRef (pushRef r) r where
  sound := PoolOp.push_sound (.methodRef r.owner r.name r.descriptor r.isInterface)
  written p k hp hOk := by
    obtain ⟨i, q, hq, hRun, hOwner⟩ := (pushClass_interns r.owner).first className_lasting
      (fun _ => (pushNameAndType_sound _ _).bind fun _ => push_sound _) hp hOk
    rw [pushRef, pushMethodRef, hRun] at hOk ⊢
    obtain ⟨j, q', hq', hRun', hNameAndType⟩ :=
      (pushNameAndType_interns r.name r.descriptor).first nameAndType_lasting
        (fun _ => push_sound _) hq hOk
    rw [hRun'] at hOk hOwner ⊢
    exact methodRef_eq_ok_iff.mpr
      ⟨i, j, get_of_push hq' (r.isSymbolic_constant i j) hOk, hOwner, hNameAndType⟩
  shared p k hp hRead := by
    obtain ⟨i, j, hHeld, hOwner, hNameAndType⟩ := methodRef_eq_ok_iff.mp hRead
    rw [pushRef, pushMethodRef, run_bind_ok ((pushClass_interns r.owner).shared p i hp hOwner),
      run_bind_ok ((pushNameAndType_interns _ _).shared p j hp hNameAndType)]
    exact push_of_get hp (r.isSymbolic_constant i j) hHeld

/-- The bootstrap method is not read back, so that sites of several of them
may read alike. -/
theorem pushInvokeDynamic_writes (bootstrap : UInt16) (name descriptor : String) :
    Writes invokeDynamic (pushInvokeDynamic bootstrap name descriptor) (name, descriptor) where
  sound := PoolOp.push_sound (.invokeDynamic bootstrap name descriptor)
  written p k hp hOk := by
    obtain ⟨i, q, hq, hRun, hNameAndType⟩ :=
      (pushNameAndType_interns name descriptor).first nameAndType_lasting
        (fun _ => push_sound _) hp hOk
    rw [pushInvokeDynamic, hRun] at hOk ⊢
    exact invokeDynamic_eq_ok_iff.mpr
      ⟨bootstrap, i, get_of_push hq ⟨nofun, nofun⟩ hOk, hNameAndType⟩

/-- Whatever was pushed before, forged constants and failures included, a
reference that was written is read as it was written, after any further
pushes. Of two method references that are written at any two moments, the
indices are the same just if the references are. -/
theorem references_read_back {history : List PoolOp} {p : ConstantPool}
    (h : pushAll {} history = p) :
    (∀ owner name descriptor isInterface k,
      (pushMethodRef owner name descriptor isInterface p).1 = .ok k →
      ∀ later, (p.pushAll (.methodRef owner name descriptor isInterface :: later)).methodRef k =
        .ok ⟨owner, name, descriptor, isInterface⟩) ∧
    (∀ bootstrap name descriptor k,
      (pushInvokeDynamic bootstrap name descriptor p).1 = .ok k →
      ∀ later, (p.pushAll (.invokeDynamic bootstrap name descriptor :: later)).invokeDynamic k =
        .ok (name, descriptor)) ∧
    (∀ name k, (pushClass name p).1 = .ok k →
      ∀ later, (p.pushAll (.classRef name :: later)).className k = .ok name) ∧
    (∀ name descriptor k, (pushNameAndType name descriptor p).1 = .ok k →
      ∀ later, (p.pushAll (.nameAndType name descriptor :: later)).nameAndType k =
        .ok (name, descriptor)) ∧
    ∀ owner name descriptor isInterface k owner' name' descriptor' isInterface' k' between,
      (pushMethodRef owner name descriptor isInterface p).1 = .ok k →
      (pushMethodRef owner' name' descriptor' isInterface'
        (p.pushAll (.methodRef owner name descriptor isInterface :: between))).1 = .ok k' →
      (k = k' ↔ owner = owner' ∧ name = name' ∧ descriptor = descriptor' ∧
        isInterface = isInterface') := by
  have hp : p.Interned := h ▸ (pushAll_sound interned_empty history).1
  refine ⟨?_, ?_, ?_, ?_, ?_⟩
  · intro owner name descriptor isInterface k hOk later
    exact (pushRef_interns ⟨owner, name, descriptor, isInterface⟩).read_pushAll methodRef_lasting
      hp hOk later
  · intro bootstrap name descriptor k hOk later
    exact (pushInvokeDynamic_writes bootstrap name descriptor).read_pushAll invokeDynamic_lasting
      hp hOk later
  · intro name k hOk later
    exact (pushClass_interns name).read_pushAll className_lasting hp hOk later
  · intro name descriptor k hOk later
    exact (pushNameAndType_interns name descriptor).read_pushAll nameAndType_lasting hp hOk later
  · intro owner name descriptor isInterface k owner' name' descriptor' isInterface' k' between
      hFirst hSecond
    rw [← MethodRef.mk.injEq]
    exact (pushRef_interns ⟨owner, name, descriptor, isInterface⟩).index_eq_iff
      (pushRef_interns ⟨owner', name', descriptor', isInterface'⟩) methodRef_lasting hp between
      hFirst hSecond

/-- A class whose name is not in the pool yet. -/
def forgedOwner : ConstantPool := pushAll {} [.constant (.classRef 2)]

/-- The first text that is pushed becomes the name of the forged class. So
it is the owner of a method reference, and the interface method of the same
parts has an index of its own. -/
theorem forgedOwner_read_back :
    (pushMethodRef "t/A" "f" "()V" false forgedOwner).1 = .ok 6 ∧
      (∀ later, (forgedOwner.pushAll (.methodRef "t/A" "f" "()V" false :: later)).methodRef 6 =
        .ok ⟨"t/A", "f", "()V", false⟩) ∧
      (pushInvokeDynamic 0 "f" "()V" forgedOwner).1 = .ok 5 ∧
      (∀ later, (forgedOwner.pushAll (.invokeDynamic 0 "f" "()V" :: later)).invokeDynamic 5 =
        .ok ("f", "()V")) ∧
      (pushClass "t/A" forgedOwner).1 = .ok 1 ∧
      (∀ later, (forgedOwner.pushAll (.classRef "t/A" :: later)).className 1 = .ok "t/A") ∧
      (pushNameAndType "f" "()V" forgedOwner).1 = .ok 4 ∧
      (∀ later, (forgedOwner.pushAll (.nameAndType "f" "()V" :: later)).nameAndType 4 =
        .ok ("f", "()V")) ∧
      (pushMethodRef "t/A" "f" "()V" true
        (forgedOwner.pushAll [.methodRef "t/A" "f" "()V" false])).1 = .ok 7 ∧
      ((6 : PoolIndex) = 7 ↔ "t/A" = "t/A" ∧ "f" = "f" ∧ "()V" = "()V" ∧ false = true) := by
  have hMethod : (pushMethodRef "t/A" "f" "()V" false forgedOwner).1 = .ok 6 := by cbv
  have hDynamic : (pushInvokeDynamic 0 "f" "()V" forgedOwner).1 = .ok 5 := by cbv
  have hClass : (pushClass "t/A" forgedOwner).1 = .ok 1 := by cbv
  have hNameAndType : (pushNameAndType "f" "()V" forgedOwner).1 = .ok 4 := by cbv
  have hOther : (pushMethodRef "t/A" "f" "()V" true
      (forgedOwner.pushAll [.methodRef "t/A" "f" "()V" false])).1 = .ok 7 := by cbv
  obtain ⟨hMethods, hDynamics, hClasses, hNames, hIndices⟩ :=
    references_read_back (p := forgedOwner) rfl
  exact ⟨hMethod, hMethods _ _ _ _ 6 hMethod, hDynamic, hDynamics _ _ _ 5 hDynamic, hClass,
    hClasses _ 1 hClass, hNameAndType, hNames _ _ 4 hNameAndType, hOther,
    hIndices _ _ _ _ 6 _ _ _ _ 7 [] hMethod hOther⟩

end ConstantPool

end JvmCalls
