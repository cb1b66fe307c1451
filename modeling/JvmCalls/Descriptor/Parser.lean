import JvmCalls.Descriptor.Basic

/-!
Reading descriptors. A type is read off the front of a text and leaves the
rest. The parameters of a method are read until the first closing
parenthesis, so a class name in a parameter cannot hold one. An error names
the text that was being read: the remaining parameters, the result, or the
whole descriptor.
-/
namespace JvmCalls

namespace JvmType

/-- More dimensions than this are refused. -/
def maxDimensions : Nat := 255

/-- A type that is no array, at the front of a text. -/
def readElement? : List Char → Option (JvmType × List Char)
  | 'V' :: rest => some (.void, rest)
  | 'Z' :: rest => some (.boolean, rest)
  | 'B' :: rest => some (.byte, rest)
  | 'S' :: rest => some (.short, rest)
  | 'C' :: rest => some (.char, rest)
  | 'I' :: rest => some (.int, rest)
  | 'J' :: rest => some (.long, rest)
  | 'F' :: rest => some (.float, rest)
  | 'D' :: rest => some (.double, rest)
  | 'L' :: rest =>
    let name := rest.takeWhile (· != ';')
    match rest.dropWhile (· != ';') with
    | _ :: after => if name = [] then none else some (.object (String.ofList name), after)
    | [] => none
  | _ => none

/-- A type at the front of a text. There are no arrays of `void`. -/
def read? (s : List Char) : Option (JvmType × List Char) :=
  let dims := (s.takeWhile (· == '[')).length
  if maxDimensions < dims then none
  else
    match readElement? (s.dropWhile (· == '[')), dims with
    | none, _ => none
    | some (t, rest), 0 => some (t, rest)
    | some (.void, _), _ + 1 => none
    | some (t, rest), _ + 1 => some (.array dims t, rest)

theorem length_readElement? {s : List Char} {t : JvmType} {rest : List Char}
    (h : readElement? s = some (t, rest)) : rest.length < s.length := by
  unfold readElement? at h
  split at h <;> try (simp only [Option.some.injEq, Prod.mk.injEq] at h; simp [← h.2])
  · rename_i tail
    split at h
    · rename_i _ after hAfter
      simp only at h
      split at h
      · simp at h
      · simp only [Option.some.injEq, Prod.mk.injEq] at h
        have hDrop : (tail.dropWhile (· != ';')).length ≤ tail.length :=
          (List.dropWhile_sublist _).length_le
        rw [hAfter] at hDrop
        simp only [List.length_cons] at hDrop ⊢
        rw [← h.2]
        omega
    · simp at h
  · simp at h

/-- Reading a type consumes text, so reading one type after the other
ends. -/
theorem length_read? {s : List Char} {t : JvmType} {rest : List Char}
    (h : read? s = some (t, rest)) : rest.length < s.length := by
  have hDrop : (s.dropWhile (· == '[')).length ≤ s.length :=
    (List.dropWhile_sublist _).length_le
  unfold read? at h
  simp only at h
  split at h
  · simp at h
  · split at h
    · simp at h
    · rename_i hElement _
      simp only [Option.some.injEq, Prod.mk.injEq] at h
      have := length_readElement? hElement
      rw [← h.2]
      omega
    · simp at h
    · rename_i hElement _
      simp only [Option.some.injEq, Prod.mk.injEq] at h
      have := length_readElement? hElement
      rw [← h.2]
      omega

/-- A text that is one type and nothing else. -/
def parse (s : List Char) : Except ClassFileError JvmType :=
  match read? s with
  | some (t, []) => .ok t
  | _ => .error (.invalidDescriptor (String.ofList s))

def ofString (s : String) : Except ClassFileError JvmType := parse s.toList

end JvmType

namespace MethodDescriptor

/-- Parameter types up to the end of the text. -/
def parseParameters (whole : List Char) (s : List Char) :
    Except ClassFileError (List JvmType) :=
  if s = [] then .ok []
  else
    match _h : JvmType.read? s with
    | none => .error (.invalidDescriptor (String.ofList s))
    | some (.void, _) => .error (.invalidDescriptor (String.ofList whole))
    | some (t, rest) => do
      let others ← parseParameters whole rest
      return t :: others
termination_by s.length
decreasing_by exact JvmType.length_read? _h

def parse (s : List Char) : Except ClassFileError MethodDescriptor :=
  match s with
  | '(' :: body =>
    match body.dropWhile (· != ')') with
    | [] => .error (.invalidDescriptor (String.ofList s))
    | _ :: result => do
      let parameters ← parseParameters s (body.takeWhile (· != ')'))
      let result ← JvmType.parse result
      return ⟨parameters, result⟩
  | _ => .error (.invalidDescriptor (String.ofList s))

def ofString (s : String) : Except ClassFileError MethodDescriptor := parse s.toList

end MethodDescriptor

end JvmCalls
