import JvmCalls.Descriptor.Parser
import Mathlib.Data.List.TakeWhile

/-! Descriptors are read exactly as they are written. The types that a text
can name are described by their shape, without the reader, and a text is
read as such a type if and only if it is what the type is written as. -/
namespace JvmCalls

namespace JvmType

/-- A primitive type, or a class whose name ends where its text does. Only
such a type can be the element of an array. -/
def IsElement : JvmType → Prop
  | void => False
  | array _ _ => False
  | object name => name ≠ "" ∧ ';' ∉ name.toList
  | _ => True

/-- The types that a descriptor can name. Where `void` may stand is left to
the place, and an array has at most 255 dimensions. -/
def WellFormed : JvmType → Prop
  | void => True
  | array dims element => 1 ≤ dims ∧ dims ≤ 255 ∧ element.IsElement
  | t => t.IsElement

/-- The class that the text of a type names, be it only as the element of an
array. -/
def namedClass? : JvmType → Option String
  | object name => some name
  | array _ element => element.namedClass?
  | _ => none

instance : (t : JvmType) → Decidable t.IsElement
  | void => inferInstanceAs (Decidable False)
  | array _ _ => inferInstanceAs (Decidable False)
  | object name => inferInstanceAs (Decidable (name ≠ "" ∧ ';' ∉ name.toList))
  | boolean | byte | short | char | int | long | float | double =>
    inferInstanceAs (Decidable True)

instance : (t : JvmType) → Decidable t.WellFormed
  | void => inferInstanceAs (Decidable True)
  | array dims element => inferInstanceAs (Decidable (1 ≤ dims ∧ dims ≤ 255 ∧ element.IsElement))
  | object name => inferInstanceAs (Decidable (IsElement (object name)))
  | boolean | byte | short | char | int | long | float | double =>
    inferInstanceAs (Decidable True)

theorem IsElement.wellFormed {t : JvmType} (h : t.IsElement) : t.WellFormed := by
  cases t with
  | void => exact trivial
  | array dims element => exact False.elim h
  | _ => exact h

/-- A type is `void`, an element or an array of elements. -/
theorem WellFormed.cases {t : JvmType} (h : t.WellFormed) :
    t = void ∨ t.IsElement ∨
      ∃ dims element, t = array dims element ∧ 1 ≤ dims ∧ dims ≤ 255 ∧ element.IsElement := by
  cases t with
  | void => exact .inl rfl
  | array dims element => exact .inr (.inr ⟨dims, element, rfl, h⟩)
  | _ => exact .inr (.inl h)

/-- A text is split in front of the first character that fails a test. -/
theorem span_iff {p : Char → Bool} {s front back : List Char} :
    s.takeWhile p = front ∧ s.dropWhile p = back ↔
      s = front ++ back ∧ (∀ c ∈ front, p c = true) ∧ ∀ c, back.head? = some c → p c = false := by
  constructor
  · intro h
    obtain ⟨rfl, rfl⟩ := h
    refine ⟨List.takeWhile_append_dropWhile.symm, fun c hc => List.mem_takeWhile_imp hc, ?_⟩
    intro c hHead
    have hNot := List.head?_dropWhile_not p s
    rw [hHead] at hNot
    simpa using hNot
  · intro h
    obtain ⟨rfl, hFront, hBack⟩ := h
    rw [List.takeWhile_append_of_pos hFront, List.dropWhile_append_of_pos hFront]
    cases back with
    | nil => simp
    | cons c back =>
        have hStop : ¬ p c = true := by simp [hBack c rfl]
        rw [List.takeWhile_cons_of_neg hStop, List.dropWhile_cons_of_neg hStop, List.append_nil]
        exact ⟨rfl, rfl⟩

/-- Searching for a character splits a text where the character stands
first. -/
theorem split_iff {d : Char} {s front back : List Char} :
    s.takeWhile (· != d) = front ∧ s.dropWhile (· != d) = d :: back ↔
      s = front ++ d :: back ∧ d ∉ front := by
  rw [span_iff]
  constructor
  · intro h
    obtain ⟨hText, hFront, -⟩ := h
    refine ⟨hText, ?_⟩
    intro hMem
    simpa using hFront d hMem
  · intro h
    obtain ⟨hText, hFront⟩ := h
    refine ⟨hText, ?_, by simp⟩
    intro c hc
    rw [bne_iff_ne]
    intro hEqual
    exact hFront (hEqual ▸ hc)

/-- What a search for a character leaves starts with that character. -/
theorem dropWhile_ne_cons {d c : Char} {s back : List Char}
    (h : s.dropWhile (· != d) = c :: back) : c = d := by
  obtain ⟨-, -, hHead⟩ := span_iff.mp ⟨rfl, h⟩
  simpa using hHead c rfl

/-- The brackets in front of a text are counted up to the first other
character. -/
theorem brackets_iff {s rest : List Char} {dims : Nat} :
    (s.takeWhile (· == '[')).length = dims ∧ s.dropWhile (· == '[') = rest ↔
      s = List.replicate dims '[' ++ rest ∧ rest.head? ≠ some '[' := by
  constructor
  · intro h
    obtain ⟨hDims, hRest⟩ := h
    obtain ⟨hText, hFront, hHead⟩ := span_iff.mp ⟨rfl, hRest⟩
    have hBrackets : s.takeWhile (· == '[') = List.replicate dims '[' := by
      apply List.eq_replicate_iff.mpr
      exact ⟨hDims, fun c hc => by simpa using hFront c hc⟩
    refine ⟨hBrackets ▸ hText, ?_⟩
    intro hBracket
    simpa using hHead '[' hBracket
  · intro h
    obtain ⟨hText, hHead⟩ := h
    have hSpan : s.takeWhile (· == '[') = List.replicate dims '[' ∧
        s.dropWhile (· == '[') = rest := by
      rw [span_iff]
      refine ⟨hText, fun c hc => by simpa using (List.mem_replicate.mp hc).2, ?_⟩
      intro c hc
      rw [beq_eq_false_iff_ne]
      intro hBracket
      exact hHead (hBracket ▸ hc)
    rw [hSpan.1, List.length_replicate]
    exact ⟨rfl, hSpan.2⟩

/-- Reading an element, or `void`, is undoing its writing. What follows the
element is left over, so that several types can be read one after the
other. -/
theorem readElement?_eq_some_iff {s rest : List Char} {t : JvmType} :
    readElement? s = some (t, rest) ↔ s = t.chars ++ rest ∧ (t = void ∨ t.IsElement) := by
  constructor
  · intro h
    unfold readElement? at h
    split at h
    case h_10 text =>
      split at h
      · rename_i c after hDrop
        obtain rfl := dropWhile_ne_cons hDrop
        obtain ⟨hText, hName⟩ := split_iff.mp ⟨rfl, hDrop⟩
        simp only at h
        split at h
        · cases h
        · rename_i hNonempty
          simp only [Option.some.injEq, Prod.mk.injEq] at h
          obtain ⟨rfl, rfl⟩ := h
          refine ⟨?_, .inr ⟨?_, ?_⟩⟩
          · rw [chars, String.toList_ofList, List.cons_append, List.cons_append, List.append_assoc,
              List.singleton_append, ← hText]
          · intro hEmpty
            rw [← String.toList_inj, String.toList_ofList] at hEmpty
            exact hNonempty hEmpty
          · rw [String.toList_ofList]
            exact hName
      · cases h
    case h_11 => cases h
    all_goals
      simp only [Option.some.injEq, Prod.mk.injEq] at h
      obtain ⟨rfl, rfl⟩ := h
      simp [chars, IsElement]
  · intro h
    obtain ⟨rfl, hType⟩ := h
    cases t with
    | array dims element => rcases hType with hVoid | hElement <;> contradiction
    | object name =>
        obtain ⟨hNonempty, hName⟩ := hType.resolve_left (by simp)
        obtain ⟨hTake, hDrop⟩ := split_iff.mpr ⟨rfl (a := name.toList ++ ';' :: rest), hName⟩
        have hList : name.toList ≠ [] := by
          intro hEmpty
          rw [← String.toList_empty, String.toList_inj] at hEmpty
          exact hNonempty hEmpty
        simp only [chars, List.cons_append, List.append_assoc, List.nil_append, readElement?, hTake,
          hDrop, if_neg hList, String.ofList_toList]
    | _ => rfl

/-- No element starts with a bracket, so brackets in front of one are all
that there are. -/
theorem head?_chars_append {t : JvmType} (h : t = void ∨ t.IsElement) (rest : List Char) :
    (t.chars ++ rest).head? ≠ some '[' := by
  cases t with
  | array dims element => rcases h with hVoid | hElement <;> contradiction
  | _ => simp [chars]

/-- What is read is well formed, and the text starts with it. -/
theorem eq_chars_append_of_read? {s rest : List Char} {t : JvmType} (h : read? s = some (t, rest)) :
    s = t.chars ++ rest ∧ t.WellFormed := by
  obtain ⟨hText, -⟩ := brackets_iff.mp ⟨rfl (a := (s.takeWhile (· == '[')).length), rfl⟩
  unfold read? at h
  simp only at h
  split at h
  · cases h
  · rename_i hMax
    split at h
    · cases h
    · rename_i u after hElement hDims
      simp only [Option.some.injEq, Prod.mk.injEq] at h
      obtain ⟨rfl, rfl⟩ := h
      obtain ⟨hRest, hType⟩ := readElement?_eq_some_iff.mp hElement
      rw [hDims, List.replicate_zero, List.nil_append, hRest] at hText
      refine ⟨hText, ?_⟩
      cases hType with
      | inl hVoid => exact hVoid ▸ trivial
      | inr hIsElement => exact hIsElement.wellFormed
    · cases h
    · rename_i u after dims hNotVoid hElement hDims
      simp only [Option.some.injEq, Prod.mk.injEq] at h
      obtain ⟨rfl, rfl⟩ := h
      obtain ⟨hRest, hType⟩ := readElement?_eq_some_iff.mp hElement
      have hIsElement : u.IsElement := hType.resolve_left hNotVoid
      rw [hRest] at hText
      refine ⟨?_, ?_, ?_, hIsElement⟩
      · rw [chars, List.append_assoc]
        exact hText
      · omega
      · simp only [maxDimensions] at hMax
        omega

/-- A well-formed type is read back, whatever follows it. No type is the
beginning of another one. -/
theorem read?_chars_append {t : JvmType} (hType : t.WellFormed) (rest : List Char) :
    read? (t.chars ++ rest) = some (t, rest) := by
  cases hType.cases with
  | inl hVoid =>
      subst hVoid
      rfl
  | inr hOther =>
      cases hOther with
      | inl hIsElement =>
          have hHead := head?_chars_append (.inr hIsElement) rest
          obtain ⟨hDims, hRest⟩ := brackets_iff.mpr
            ⟨show t.chars ++ rest = List.replicate 0 '[' ++ (t.chars ++ rest) from rfl, hHead⟩
          have hElement :=
            readElement?_eq_some_iff.mpr ⟨rfl (a := t.chars ++ rest), .inr hIsElement⟩
          simp [read?, hDims, hRest, hElement]
      | inr hArray =>
          obtain ⟨dims, element, rfl, hPositive, hMax, hIsElement⟩ := hArray
          have hHead := head?_chars_append (.inr hIsElement) rest
          obtain ⟨hDims, hRest⟩ := brackets_iff.mpr
            ⟨List.append_assoc (List.replicate dims '[') element.chars rest, hHead⟩
          have hElement := readElement?_eq_some_iff.mpr
            ⟨rfl (a := element.chars ++ rest), .inr hIsElement⟩
          obtain ⟨previous, rfl⟩ := Nat.exists_eq_add_of_le' hPositive
          have hFew : ¬ maxDimensions < previous + 1 := Nat.not_lt.mpr hMax
          unfold read?
          simp only [chars, hDims, hRest, hElement, hFew, if_false]
          cases element with
          | void => exact False.elim hIsElement
          | _ => rfl

/-- Reading a type is undoing its writing. -/
theorem read?_eq_some_iff {s rest : List Char} {t : JvmType} :
    read? s = some (t, rest) ↔ s = t.chars ++ rest ∧ t.WellFormed := by
  constructor
  · exact eq_chars_append_of_read?
  · intro h
    rw [h.1]
    exact read?_chars_append h.2 rest

/-- A whole text is read as a type just if it is what the type is written
as, with nothing left over. -/
theorem parse_eq_ok_iff {s : List Char} {t : JvmType} :
    parse s = .ok t ↔ t.chars = s ∧ t.WellFormed := by
  have hWhole : parse s = .ok t ↔ read? s = some (t, []) := by
    unfold parse
    split
    · rename_i u hRead
      simp [hRead]
    · rename_i hNone
      constructor
      · intro h
        cases h
      · intro h
        exact False.elim (hNone t h)
  rw [hWhole, read?_eq_some_iff, List.append_nil, eq_comm]

theorem chars_ne_nil {t : JvmType} (h : t.WellFormed) : t.chars ≠ [] := by
  cases t with
  | array dims element =>
      obtain ⟨hPositive, -⟩ := h
      intro hEmpty
      have hBrackets := (List.append_eq_nil_iff.mp hEmpty).1
      rw [List.replicate_eq_nil_iff] at hBrackets
      omega
  | _ => simp [chars]

/-- A parenthesis in the text of a type stands in the name of a class. -/
theorem mem_chars_iff {t : JvmType} :
    ')' ∈ t.chars ↔ ∃ name, t.namedClass? = some name ∧ ')' ∈ name.toList := by
  induction t with
  | array dims element ih =>
      have hBracket : ')' ∉ List.replicate dims '[' := by
        intro hMem
        cases (List.mem_replicate.mp hMem).2
      rw [chars, List.mem_append, or_iff_right hBracket]
      exact ih
  | object name => simp [chars, namedClass?]
  | _ => simp [chars, namedClass?]

end JvmType

namespace MethodDescriptor

/-- The descriptors that a text can name. Parameters end at the first
parenthesis, so none of them may hold one. -/
structure WellFormed (d : MethodDescriptor) : Prop where
  parameters : ∀ t ∈ d.parameters, t.WellFormed ∧ t ≠ .void
  result : d.result.WellFormed
  closed : ∀ t ∈ d.parameters, ∀ name, t.namedClass? = some name → ')' ∉ name.toList

theorem parseParameters_nil (whole : List Char) : parseParameters whole [] = .ok [] := by
  rw [parseParameters, if_pos rfl]

/-- A text that starts with a type other than `void` continues with the
other parameters. This is one turn of the loop over the parameters. -/
theorem parseParameters_append {t : JvmType} (hType : t.WellFormed) (hVoid : t ≠ .void)
    (whole rest : List Char) :
    parseParameters whole (t.chars ++ rest) = (parseParameters whole rest).map (t :: ·) := by
  have hRead := JvmType.read?_chars_append hType rest
  have hText : t.chars ++ rest ≠ [] := by
    intro hEmpty
    exact JvmType.chars_ne_nil hType (List.append_eq_nil_iff.mp hEmpty).1
  rw [parseParameters, if_neg hText]
  split
  · rename_i hNone
    rw [hRead] at hNone
    cases hNone
  · rename_i hSome
    rw [hRead] at hSome
    cases hSome
    exact False.elim (hVoid rfl)
  · rename_i hSome
    rw [hRead] at hSome
    cases hSome
    cases parseParameters whole rest <;> rfl

/-- A text is read as a list of parameters just if it is what they are
written as, one after the other. The induction is on the text, which every
parameter makes shorter. -/
theorem parseParameters_eq_ok_iff {whole s : List Char} {ts : List JvmType} :
    parseParameters whole s = .ok ts ↔
      s = ts.flatMap JvmType.chars ∧ ∀ t ∈ ts, t.WellFormed ∧ t ≠ .void := by
  constructor
  · intro h
    fun_induction parseParameters whole s generalizing ts with
    | case1 =>
        cases h
        simp
    | case2 => cases h
    | case3 => cases h
    | case4 s hText t rest hVoid hRead ih =>
        obtain ⟨rfl, hType⟩ := JvmType.eq_chars_append_of_read? hRead
        cases hRest : parseParameters whole rest with
        | error e => simp [hRest, bind, Except.bind] at h
        | ok others =>
            simp only [hRest, bind, Except.bind, pure, Except.pure, Except.ok.injEq] at h
            subst h
            obtain ⟨hText, hOthers⟩ := ih hRest
            refine ⟨?_, ?_⟩
            · rw [List.flatMap_cons, ← hText]
            · intro u hu
              cases List.mem_cons.mp hu with
              | inl hFirst => exact hFirst ▸ ⟨hType, hVoid⟩
              | inr hOther => exact hOthers u hOther
  · intro h
    obtain ⟨rfl, hTypes⟩ := h
    induction ts with
    | nil => exact parseParameters_nil whole
    | cons t ts ih =>
        obtain ⟨hType, hVoid⟩ := hTypes t List.mem_cons_self
        have hRest := ih fun u hu => hTypes u (List.mem_cons_of_mem t hu)
        rw [List.flatMap_cons, parseParameters_append hType hVoid, hRest]
        rfl

/-- The parameters of a well-formed descriptor hold no parenthesis. -/
theorem not_mem_parameters_iff {ts : List JvmType} :
    ')' ∉ ts.flatMap JvmType.chars ↔
      ∀ t ∈ ts, ∀ name, t.namedClass? = some name → ')' ∉ name.toList := by
  simp only [List.mem_flatMap, JvmType.mem_chars_iff, not_exists, not_and]

/-- A whole text is read as a descriptor just if it is what the descriptor
is written as. The closing parenthesis is searched first, which is why no
parameter may hold one. -/
theorem parse_eq_ok_iff {s : List Char} {d : MethodDescriptor} :
    parse s = .ok d ↔ d.chars = s ∧ d.WellFormed := by
  constructor
  · intro h
    unfold parse at h
    split at h
    · rename_i body
      split at h
      · cases h
      · rename_i c text hDrop
        obtain rfl := JvmType.dropWhile_ne_cons hDrop
        obtain ⟨hBody, hClosed⟩ := JvmType.split_iff.mp ⟨rfl, hDrop⟩
        cases hParameters : parseParameters ('(' :: body) (body.takeWhile (· != ')')) with
        | error e => simp [hParameters, bind, Except.bind] at h
        | ok parameters =>
            cases hResult : JvmType.parse text with
            | error e => simp [hParameters, hResult, bind, Except.bind] at h
            | ok result =>
                simp only [hParameters, hResult, bind, Except.bind, pure, Except.pure,
                  Except.ok.injEq] at h
                subst h
                obtain ⟨hFront, hTypes⟩ := parseParameters_eq_ok_iff.mp hParameters
                obtain ⟨rfl, hResultType⟩ := JvmType.parse_eq_ok_iff.mp hResult
                rw [hFront] at hBody hClosed
                refine ⟨?_, hTypes, hResultType, not_mem_parameters_iff.mp hClosed⟩
                rw [chars, hBody]
                rfl
    · cases h
  · intro h
    obtain ⟨rfl, hTypes, hResultType, hClosed⟩ := h
    obtain ⟨hFront, hBack⟩ := JvmType.split_iff.mpr
      ⟨rfl (a := d.parameters.flatMap JvmType.chars ++ ')' :: d.result.chars),
        not_mem_parameters_iff.mpr hClosed⟩
    have hParameters : parseParameters d.chars (d.parameters.flatMap JvmType.chars) =
        .ok d.parameters := parseParameters_eq_ok_iff.mpr ⟨rfl, hTypes⟩
    have hResult := JvmType.parse_eq_ok_iff.mpr ⟨rfl, hResultType⟩
    rw [chars] at hParameters ⊢
    simp only [List.cons_append] at hParameters ⊢
    simp only [parse, hFront, hBack, hParameters, hResult, bind, Except.bind, pure, Except.pure]

end MethodDescriptor

/-- A text is read as a method descriptor if and only if that descriptor is
well formed and written so, and the same holds of types. -/
theorem descriptors_are_read_as_written (s : String) :
    (∀ d : MethodDescriptor, MethodDescriptor.ofString s = .ok d ↔ d.render = s ∧ d.WellFormed) ∧
      ∀ t : JvmType, JvmType.ofString s = .ok t ↔ t.render = s ∧ t.WellFormed := by
  constructor
  · intro d
    rw [MethodDescriptor.ofString, MethodDescriptor.parse_eq_ok_iff, MethodDescriptor.render,
      ← String.toList_inj, String.toList_ofList]
  · intro t
    rw [JvmType.ofString, JvmType.parse_eq_ok_iff, JvmType.render, ← String.toList_inj,
      String.toList_ofList]

end JvmCalls
