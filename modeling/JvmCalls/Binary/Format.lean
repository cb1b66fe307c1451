/-!
Floating-point numbers as bit patterns. A number is kept as the bits that
a class file stores. Two patterns may denote equal numbers (the two zeros),
and a pattern that denotes no number differs from itself, so number equality
is apart from equality of patterns.
-/
namespace JvmCalls

/-- Widths of the two fields below the sign bit. -/
structure BinaryFormat where
  exponentBits : Nat
  fractionBits : Nat

namespace BinaryFormat

def single : BinaryFormat := ⟨8, 23⟩
def double : BinaryFormat := ⟨11, 52⟩

variable (f : BinaryFormat)

def fraction (bits : Nat) : Nat := bits % (1 <<< f.fractionBits)

def biasedExponent (bits : Nat) : Nat := (bits >>> f.fractionBits) % (1 <<< f.exponentBits)

def isNegative (bits : Nat) : Bool :=
  (bits >>> (f.fractionBits + f.exponentBits)) % 2 == 1

/-- The exponent field of infinities and of patterns that denote no
number. -/
def topExponent : Nat := (1 <<< f.exponentBits) - 1

def isNaN (bits : Nat) : Bool :=
  f.biasedExponent bits == f.topExponent && f.fraction bits != 0

def isInfinite (bits : Nat) : Bool :=
  f.biasedExponent bits == f.topExponent && f.fraction bits == 0

def isZero (bits : Nat) : Bool :=
  f.biasedExponent bits == 0 && f.fraction bits == 0

/-- The integer factor of a finite number: below the least normal exponent
there is no implied leading one. -/
def significand (bits : Nat) : Nat :=
  if f.biasedExponent bits = 0 then f.fraction bits
  else (1 <<< f.fractionBits) + f.fraction bits

/-- The power of two that multiplies the significand of a finite number. -/
def scale (bits : Nat) : Int :=
  (max 1 (f.biasedExponent bits) : Nat) - ((1 <<< (f.exponentBits - 1)) - 1 : Nat) - f.fractionBits

/-- Number equality of two patterns. -/
def numberEq (a b : Nat) : Bool :=
  !f.isNaN a && !f.isNaN b && (a == b || (f.isZero a && f.isZero b))

end BinaryFormat

/-- A single-precision bit pattern. -/
structure Single where
  bits : UInt32
deriving DecidableEq, Repr, Inhabited

/-- A double-precision bit pattern. -/
structure Double where
  bits : UInt64
deriving DecidableEq, Repr, Inhabited

def Single.numberEq (a b : Single) : Bool :=
  BinaryFormat.single.numberEq a.bits.toNat b.bits.toNat

def Double.numberEq (a b : Double) : Bool :=
  BinaryFormat.double.numberEq a.bits.toNat b.bits.toNat

end JvmCalls
