/-! Spellings of integers: always signed, and fixed-width hexadecimal. -/
namespace JvmCalls.Text

/-- A relative distance carries its sign even when it is zero or
positive. -/
def signed (i : Int) : String :=
  if i < 0 then toString i else "+" ++ toString i

/-- One byte as two lower-case hexadecimal digits after a marker. -/
def hexByte (b : UInt8) : String :=
  "0x" ++ String.ofList [Nat.digitChar (b.toNat / 16), Nat.digitChar (b.toNat % 16)]

end JvmCalls.Text
