import JvmCalls.Proofs.Descriptor.Grammar
import JvmCalls.Resolver.Operands
import Mathlib

/-! The operands of a call are the values that were pushed for it. A stack
is spread over slots from the bottom up and read from the top down by the
types of the parameters. Both agree on where a value stands, whatever values
are wide and whatever lies below the receiver. The depth of the receiver is
come to in two ways, once by going down the arguments and once by adding up
the slots of the parameters. -/
namespace JvmCalls

namespace MethodFacts

/-- The depths of the arguments of a call, given their types. Each argument
has all later ones above it. -/
def argumentDepths : List JvmType → List Nat
  | [] => []
  | _ :: later => JvmType.slotsOf later :: argumentDepths later

/-- Going down the arguments reads each at its depth. The way ends behind
the slots of all parameters, which is where the receiver is looked for. -/
theorem readArguments_eq (facts : MethodFacts) (a : Address) (types : List JvmType) :
    facts.readArguments a types =
      ((argumentDepths types).map (facts.stackValue a), JvmType.slotsOf types) := by
  rw [readArguments, List.foldl_reverse]
  -- The last argument is read first, so that the step for the first one comes on top.
  induction types with
  | nil => rfl
  | cons t later ih =>
      rw [List.foldr_cons, ih, readArgument, argumentDepths, List.map_cons, JvmType.slotsOf,
        Nat.add_comm t.slots]

/-- The arguments are read at the depths that the types of later arguments
leave for them. -/
theorem arguments_operands (facts : MethodFacts) (a : Address) (d : MethodDescriptor)
    (hasReceiver : Bool) : (facts.operands a d hasReceiver).arguments =
      (argumentDepths d.parameters).map (facts.stackValue a) := by
  rw [operands, readArguments_eq]

/-- The receiver is read below all arguments, where their slots add up
to. -/
theorem receiver_operands (facts : MethodFacts) (a : Address) (d : MethodDescriptor)
    (hasReceiver : Bool) : (facts.operands a d hasReceiver).receiver =
      if hasReceiver then some (facts.stackValue a d.parameterSlots) else none := by
  rw [operands, readArguments_eq]
  rfl

end MethodFacts

/-- The value is as wide as its type says. Nothing else of the value has to
agree with the type. -/
def Value.Fits (v : Value) (t : JvmType) : Prop :=
  v.isCategory2 = true ↔ t = .long ∨ t = .double

/-- A value by both evaluations: where several types are possible, these
count, and else the particular value. -/
def Value.combine (several particular : Value) : Value :=
  if 1 < several.typeCount then several else particular

/-- A value takes as many slots as its type. -/
theorem Value.Fits.slots_eq {v : Value} {t : JvmType} (h : v.Fits t) (hVoid : t ≠ .void) :
    t.slots = if v.isCategory2 then 2 else 1 := by
  rw [Fits] at h
  simp only [h]
  cases t with
  | void => exact False.elim (hVoid rfl)
  | _ => simp [JvmType.slots]

namespace Frames

theorem slots_append (l k : List Value) : slots (l ++ k) = slots l ++ slots k :=
  List.flatMap_append

/-- A value stands in the upper one of its slots. -/
theorem slots_cons (v : Value) (rest : List Value) :
    slots (v :: rest) = (if v.isCategory2 then [.top] else []) ++ v :: slots rest := by
  rw [slots, List.flatMap_cons]
  split
  · rfl
  · rfl

/-- Above a value are the slots of the values above it, and nothing else. -/
theorem slotAt?_slots (below above : List Value) (v : Value) :
    slotAt? (slots (below ++ v :: above)) (slots above).length = some v := by
  rw [slotAt?, slots_append, slots_cons, ← List.append_assoc, List.reverse_append,
    List.reverse_cons, List.append_assoc, List.getElem?_append_right (by simp)]
  simp

variable {types : List JvmType} {values : List Value}

/-- The slots of the arguments add up to those of their types. So the types
alone tell where the receiver is. -/
theorem length_slots (h : List.Forall₂ (fun t v => Value.Fits v t) types values)
    (hVoid : .void ∉ types) : (slots values).length = JvmType.slotsOf types := by
  induction h with
  | nil => rfl
  | @cons t v types values hFirst hRest ih =>
      obtain ⟨hType, hTypes⟩ := not_or.mp (mt List.mem_cons.mpr hVoid)
      rw [slots_cons, List.length_append, List.length_cons, ih hTypes, JvmType.slotsOf,
        hFirst.slots_eq (Ne.symm hType)]
      split
      · simp only [List.length_singleton]
        omega
      · simp only [List.length_nil]
        omega

/-- Reading from the top by types finds the values that were put on the
stack. -/
theorem slotAt?_argumentDepths (h : List.Forall₂ (fun t v => Value.Fits v t) types values)
    (hVoid : .void ∉ types) (below : List Value) :
    (MethodFacts.argumentDepths types).map (slotAt? (slots (below ++ values))) =
      values.map some := by
  induction h generalizing below with
  | nil => rfl
  | @cons t v types values hFirst hRest ih =>
      have hTypes := (not_or.mp (mt List.mem_cons.mpr hVoid)).2
      -- Seen from the arguments that are left, the first one lies below.
      have hLater := ih hTypes (below ++ [v])
      rw [List.append_assoc, List.singleton_append] at hLater
      rw [MethodFacts.argumentDepths, List.map_cons, List.map_cons, hLater,
        ← length_slots hRest hTypes, slotAt?_slots]

/-- The stack before an instruction is the one that was recorded for it
last, whatever was recorded before, and for other instructions since. -/
inductive Recorded (a : Address) (stack : List Value) : Frames → Prop where
  | set (f : Frames) : Recorded a stack (f.setBefore a stack)
  | before {f : Frames} (prior : Recorded a stack f) {other : Address} (hOther : other ≠ a)
      (values : List Value) : Recorded a stack (f.setBefore other values)
  | after {f : Frames} (prior : Recorded a stack f) (other : Address) (values : List Value) :
      Recorded a stack (f.setAfter other values)
  | steps {f : Frames} (prior : Recorded a stack f) (steps : Nat) :
      Recorded a stack { f with steps }

variable {f : Frames} {a : Address} {stack : List Value}

/-- What was recorded for the instruction last is what is found there.
Records of other instructions do not reach it. -/
theorem Recorded.stackBefore?_eq (h : f.Recorded a stack) (depth : Nat) :
    f.stackBefore? a depth = slotAt? (slots stack) depth := by
  have hLookup : f.before.lookup a = some (slots stack) := by
    induction h with
    | set f => simp [setBefore]
    | before prior hOther values ih =>
        rw [setBefore, List.lookup_cons, beq_false_of_ne hOther.symm]
        exact ih
    | after prior other values ih => exact ih
    | steps prior steps ih => exact ih
  rw [stackBefore?, hLookup, Option.bind_some]

/-- The receiver lies below all arguments. -/
theorem Recorded.receiver {below : List Value} {v : Value}
    (h : f.Recorded a (below ++ v :: values))
    (hShape : List.Forall₂ (fun t v => Value.Fits v t) types values) (hVoid : .void ∉ types) :
    f.stackBefore? a (JvmType.slotsOf types) = some v := by
  rw [h.stackBefore?_eq, ← length_slots hShape hVoid, slotAt?_slots]

/-- Each argument is found at its depth, whatever lies below. -/
theorem Recorded.arguments {below : List Value} (h : f.Recorded a (below ++ values))
    (hShape : List.Forall₂ (fun t v => Value.Fits v t) types values) (hVoid : .void ∉ types) :
    List.Forall₂ (fun depth v => f.stackBefore? a depth = some v)
      (MethodFacts.argumentDepths types) values := by
  have hRead := slotAt?_argumentDepths hShape hVoid below
  rw [← List.forall₂_eq_eq_eq, List.forall₂_map_left_iff, List.forall₂_map_right_iff] at hRead
  apply hRead.imp
  intro depth v hSlot
  rw [h.stackBefore?_eq, hSlot]

end Frames

/-- The parameters of a descriptor that was read have values. -/
theorem MethodDescriptor.void_not_mem_parameters {text : String} {d : MethodDescriptor}
    (h : MethodDescriptor.ofString text = .ok d) : .void ∉ d.parameters := by
  intro hMem
  exact ((parse_eq_ok_iff.mp h).2.parameters .void hMem).2 rfl

theorem forall₂_zipWith {α β γ δ : Type} {P : α → β → Prop} {Q : α → γ → Prop} {R : α → δ → Prop}
    {g : γ → β → δ} (hBoth : ∀ a b c, P a b → Q a c → R a (g c b)) {l : List α} {k : List β}
    {m : List γ} (hFirst : List.Forall₂ P l k) (hSecond : List.Forall₂ Q l m) :
    List.Forall₂ R l (List.zipWith g m k) := by
  induction hFirst generalizing m with
  | nil =>
      cases hSecond
      exact .nil
  | cons hHead hTail ih =>
      cases hSecond with
      | cons hHead' hTail' => exact .cons (hBoth _ _ _ hHead hHead') (ih hTail')

namespace MethodFacts

variable {facts : MethodFacts} {f several : Frames} {a : Address} {depth : Nat} {v w : Value}

/-- Without several types the particular value counts. -/
theorem stackValue_of_particular (hParticular : facts.particular = some f)
    (hSeveral : facts.multiType = none) (h : f.stackBefore? a depth = some v) :
    facts.stackValue a depth = v := by
  simp [stackValue, hParticular, hSeveral, h]

/-- With both evaluations the value with several types counts, if there is
one. -/
theorem stackValue_of_both (hParticular : facts.particular = some f)
    (hSeveral : facts.multiType = some several) (h : f.stackBefore? a depth = some v)
    (hOther : several.stackBefore? a depth = some w) : facts.stackValue a depth = w.combine v := by
  simp only [stackValue, hParticular, hSeveral, Option.bind_some, h, hOther, Option.filter_some,
    decide_eq_true_eq, Value.combine]
  by_cases hTypes : 1 < w.typeCount
  · rw [if_pos hTypes, if_pos hTypes]
  · rw [if_neg hTypes, if_neg hTypes]
    rfl

theorem foundReferences_of_stackBefore? (h : f.stackBefore? a depth = some v) :
    foundReferences (some f) a depth = v.references := by
  rw [foundReferences, Option.bind_some, h]

/-- The first evaluation that found references at the receiver counts. If
none did, the class that is referred to stands for the receiver. -/
theorem receivers_eq (facts : MethodFacts) (a : Address) (depth : Nat) (owner : String) :
    facts.receivers a depth owner =
      if foundReferences facts.multiType a depth = [] then
        if foundReferences facts.particular a depth = [] then [.extensible owner]
        else foundReferences facts.particular a depth
      else foundReferences facts.multiType a depth := by
  unfold receivers
  split
  · next hSeveral =>
      rw [if_pos hSeveral]
      split
      · next hParticular => rw [if_pos hParticular]
      · next hParticular => rw [if_neg hParticular]
  · next hSeveral => rw [if_neg hSeveral]

/-- Without several types the arguments of a call are the particular
values. -/
theorem arguments_of_particular {depths : List Nat} {values : List Value}
    (hParticular : facts.particular = some f) (hSeveral : facts.multiType = none)
    (h : List.Forall₂ (fun depth v => f.stackBefore? a depth = some v) depths values) :
    depths.map (facts.stackValue a) = values := by
  rw [← List.forall₂_eq_eq_eq, List.forall₂_map_left_iff]
  exact h.imp fun depth v => stackValue_of_particular hParticular hSeveral

/-- With both evaluations the arguments are combined one by one. -/
theorem arguments_of_both {depths : List Nat} {values others : List Value}
    (hParticular : facts.particular = some f) (hSeveral : facts.multiType = some several)
    (h : List.Forall₂ (fun depth v => f.stackBefore? a depth = some v) depths values)
    (hOthers : List.Forall₂ (fun depth w => several.stackBefore? a depth = some w) depths others) :
    depths.map (facts.stackValue a) = List.zipWith Value.combine others values := by
  rw [← List.forall₂_eq_eq_eq, List.forall₂_map_left_iff]
  refine forall₂_zipWith ?_ h hOthers
  intro depth v w hValue hOther
  exact stackValue_of_both hParticular hSeveral hValue hOther

/-- The arguments and the receiver of a call are the values that were on the
stack, the last argument on top. Where both evaluations recorded a stack of
this shape, each value is the one with several types if there is one, and
the particular one if not. The types of the receiver are read from the same
values. -/
theorem operands_are_read_back (facts : MethodFacts) {text : String} {d : MethodDescriptor}
    (hParsed : MethodDescriptor.ofString text = .ok d) {f : Frames}
    (hParticular : facts.particular = some f) {a : Address} {below arguments : List Value}
    {receiver : Value} (hRecorded : f.Recorded a (below ++ receiver :: arguments))
    (hShape : List.Forall₂ (fun t v => Value.Fits v t) d.parameters arguments)
    (hasReceiver : Bool) (owner : String) :
    f.stackBefore? a d.parameterSlots = some receiver ∧
    (facts.multiType = none →
      (facts.operands a d hasReceiver).arguments = arguments ∧
      (facts.operands a d hasReceiver).receiver = (if hasReceiver then some receiver else none) ∧
      facts.receivers a d.parameterSlots owner =
        if receiver.references = [] then [.extensible owner] else receiver.references) ∧
    ∀ several below' arguments' receiver', facts.multiType = some several →
      several.Recorded a (below' ++ receiver' :: arguments') →
      List.Forall₂ (fun t v => Value.Fits v t) d.parameters arguments' →
        several.stackBefore? a d.parameterSlots = some receiver' ∧
        (facts.operands a d hasReceiver).arguments =
          List.zipWith Value.combine arguments' arguments ∧
        (facts.operands a d hasReceiver).receiver =
          (if hasReceiver then some (receiver'.combine receiver) else none) ∧
        facts.receivers a d.parameterSlots owner =
          if receiver'.references = [] then
            if receiver.references = [] then [.extensible owner] else receiver.references
          else receiver'.references := by
  have hVoid := MethodDescriptor.void_not_mem_parameters hParsed
  have hReceiver : f.stackBefore? a d.parameterSlots = some receiver :=
    hRecorded.receiver hShape hVoid
  have hAbove := List.append_cons below receiver arguments ▸ hRecorded
  have hArguments := hAbove.arguments hShape hVoid
  have hFound := foundReferences_of_stackBefore? hReceiver
  refine ⟨hReceiver, ?_, ?_⟩
  · intro hSeveral
    refine ⟨?_, ?_, ?_⟩
    · rw [arguments_operands, arguments_of_particular hParticular hSeveral hArguments]
    · rw [receiver_operands, stackValue_of_particular hParticular hSeveral hReceiver]
    · rw [receivers_eq, hParticular, hSeveral, hFound]
      rfl
  · intro several below' arguments' receiver' hSeveral hRecorded' hShape'
    have hReceiver' : several.stackBefore? a d.parameterSlots = some receiver' :=
      hRecorded'.receiver hShape' hVoid
    have hAbove' := List.append_cons below' receiver' arguments' ▸ hRecorded'
    have hArguments' := hAbove'.arguments hShape' hVoid
    refine ⟨hReceiver', ?_, ?_, ?_⟩
    · rw [arguments_operands, arguments_of_both hParticular hSeveral hArguments hArguments']
    · rw [receiver_operands, stackValue_of_both hParticular hSeveral hReceiver hReceiver']
    · rw [receivers_eq, hParticular, hSeveral, hFound, foundReferences_of_stackBefore? hReceiver']

end MethodFacts

/-- Wide parameters on both sides of a reference. -/
def wideDescriptor : MethodDescriptor := ⟨[.long, .object "t/A", .double], .void⟩

/-- A receiver and three arguments on top of other values, one of which is
wide. -/
def wideStack : Frames :=
  (Frames.setAfter {} ⟨4⟩ [.top]).setBefore ⟨4⟩
    [.primitive (.double none), .top, .reference (.exact "t/R"), .primitive (.long (some 7)),
      .reference (.exact "t/A"), .primitive (.double none)]

/-- The types of the receiver are not known here, but there are two for an
argument. -/
def wideTypes : Frames :=
  (Frames.setBefore {} ⟨4⟩
    [.top, .primitive (.long none), .multiType [.exact "t/A", .extensible "t/C"],
      .primitive (.double none)]).setBefore ⟨7⟩ []

theorem wideStack_recorded : wideStack.Recorded ⟨4⟩
    ([.primitive (.double none), .top] ++ .reference (.exact "t/R") ::
      [.primitive (.long (some 7)), .reference (.exact "t/A"), .primitive (.double none)]) :=
  .set _

theorem wideTypes_recorded : wideTypes.Recorded ⟨4⟩
    ([] ++ .top :: [.primitive (.long none), .multiType [.exact "t/A", .extensible "t/C"],
      .primitive (.double none)]) :=
  .before (.set _) (by decide) _

/-- One argument is told by its types, the others and the receiver by their
values. -/
theorem wideStack_operands :
    MethodDescriptor.ofString "(JLt/A;D)V" = .ok wideDescriptor ∧
      wideStack.stackBefore? ⟨4⟩ 5 = some (.reference (.exact "t/R")) ∧
      (MethodFacts.operands ⟨none, some wideStack, none⟩ ⟨4⟩ wideDescriptor true).arguments =
        [.primitive (.long (some 7)), .reference (.exact "t/A"), .primitive (.double none)] ∧
      (MethodFacts.operands ⟨some wideTypes, some wideStack, none⟩ ⟨4⟩ wideDescriptor
        true).arguments = [.primitive (.long (some 7)),
          .multiType [.exact "t/A", .extensible "t/C"], .primitive (.double none)] ∧
      (MethodFacts.operands ⟨some wideTypes, some wideStack, none⟩ ⟨4⟩ wideDescriptor
        true).receiver = some (.reference (.exact "t/R")) ∧
      MethodFacts.receivers ⟨some wideTypes, some wideStack, none⟩ ⟨4⟩ 5 "t/Q" =
        [.exact "t/R"] := by
  have hParsed : MethodDescriptor.ofString "(JLt/A;D)V" = .ok wideDescriptor := by cbv
  have hShape : List.Forall₂ (fun t v => Value.Fits v t) wideDescriptor.parameters
      [.primitive (.long (some 7)), .reference (.exact "t/A"), .primitive (.double none)] := by
    simp [wideDescriptor, Value.Fits, Value.isCategory2, Primitive.isCategory2]
  have hTypes : List.Forall₂ (fun t v => Value.Fits v t) wideDescriptor.parameters
      [.primitive (.long none), .multiType [.exact "t/A", .extensible "t/C"],
        .primitive (.double none)] := by
    simp [wideDescriptor, Value.Fits, Value.isCategory2, Primitive.isCategory2]
  obtain ⟨hReceiver, hParticular, -⟩ := MethodFacts.operands_are_read_back
    ⟨none, some wideStack, none⟩ hParsed rfl wideStack_recorded hShape true "t/Q"
  obtain ⟨-, -, hBoth⟩ := MethodFacts.operands_are_read_back
    ⟨some wideTypes, some wideStack, none⟩ hParsed rfl wideStack_recorded hShape true "t/Q"
  obtain ⟨-, hArguments, hInstance, hReceivers⟩ :=
    hBoth wideTypes _ _ _ rfl wideTypes_recorded hTypes
  exact ⟨hParsed, hReceiver, (hParticular rfl).1, hArguments, hInstance, hReceivers⟩

end JvmCalls
