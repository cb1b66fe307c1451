import JvmCalls.Binary.Format

/-!
Shortest decimals. A finite number owns the decimals that round to it. The
text of the number is taken from the coarsest decimal grid with a point
among them, and it is written positionally, whatever its size. All
arithmetic is on exact integers.
-/
namespace JvmCalls

/-- A positive rational with the interval of reals that round to it, all
three over one common denominator. `closed` tells whether the ends belong to
the interval. -/
structure RoundingInterval where
  low : Nat
  middle : Nat
  high : Nat
  denominator : Nat
  closed : Bool

/-- A decimal integer times a power of ten. -/
structure Decimal where
  digits : Nat
  exponent : Int
deriving DecidableEq, Repr

namespace RoundingInterval

/-- The number `significand * 2 ^ scale`. Its neighbour below is half as far
when the significand is the least normal one. -/
def ofScaled (significand : Nat) (scale : Int) (leastNormal : Bool) : RoundingInterval :=
  let up := 1 <<< (scale - 2).toNat
  { low := (4 * significand - (if leastNormal then 1 else 2)) * up
    middle := 4 * significand * up
    high := (4 * significand + 2) * up
    denominator := 1 <<< (2 - scale).toNat
    closed := significand % 2 == 0 }

/-- The point of the grid of multiples of `10 ^ e` that stands for the
number, if one of its two neighbours on that grid lies in the interval. Of
two the nearer is taken, and the larger when both are equally near. -/
def onGrid? (r : RoundingInterval) (e : Int) : Option Nat :=
  let unit := r.denominator * Nat.pow 10 e.toNat
  let fine := Nat.pow 10 (-e).toNat
  let below := r.middle * fine / unit
  let above := below + 1
  let down := if r.closed then r.low * fine ≤ below * unit else r.low * fine < below * unit
  let up := if r.closed then above * unit ≤ r.high * fine else above * unit < r.high * fine
  let rest := r.middle * fine - below * unit
  if up ∧ (¬down ∨ unit ≤ 2 * rest) then some above
  else if down then some below
  else none

/-- Refine the grid one decimal at a time, at most `steps` times. -/
def search (r : RoundingInterval) : Nat → Int → Option Decimal
  | 0, _ => none
  | steps + 1, e =>
    match r.onGrid? e with
    | some n => some ⟨n, e⟩
    | none => r.search steps (e - 1)

end RoundingInterval

namespace Decimal

/-- Zeros at the end move into the exponent. -/
def strip (fuel : Nat) (d : Decimal) : Decimal :=
  match fuel with
  | 0 => d
  | fuel + 1 =>
    if d.digits ≠ 0 ∧ d.digits % 10 = 0 then strip fuel ⟨d.digits / 10, d.exponent + 1⟩ else d

/-- The digits with a point and the zeros that place it, never with an
exponent. -/
def positional (d : Decimal) : String :=
  let digits := (toString d.digits).toList
  if 0 ≤ d.exponent then
    String.ofList (digits ++ List.replicate d.exponent.toNat '0')
  else
    let places := (-d.exponent).toNat
    if places < digits.length then
      String.ofList (digits.take (digits.length - places) ++ '.' ::
        digits.drop (digits.length - places))
    else
      String.ofList ('0' :: '.' :: List.replicate (places - digits.length) '0' ++ digits)

end Decimal

namespace BinaryFormat

/-- The shortest decimal of a finite number other than zero. The first grid
is coarser than the number, and a grid finer than the distance of its
neighbours has a point in the interval, so the search ends with a
decimal. -/
def shortest? (f : BinaryFormat) (bits : Nat) : Option Decimal :=
  let significand := f.significand bits
  let scale := f.scale bits
  let leastNormal := f.fraction bits == 0 && f.biasedExponent bits != 0
  let start : Int := ((scale + f.fractionBits + 1).toNat / 3 : Nat) + 1
  let steps := start.toNat + scale.natAbs + 3
  ((RoundingInterval.ofScaled significand scale leastNormal).search steps start).map
    (Decimal.strip 20)

/-- The sign of a zero is shown, that of a pattern without number is not. -/
def render (f : BinaryFormat) (bits : Nat) : String :=
  if f.isNaN bits then "NaN"
  else
    let sign := if f.isNegative bits then "-" else ""
    if f.isInfinite bits then sign ++ "inf"
    else if f.isZero bits then sign ++ "0"
    else match f.shortest? bits with
      | some d => sign ++ d.positional
      | none => sign ++ "0"

end BinaryFormat

def Single.render (x : Single) : String := BinaryFormat.single.render x.bits.toNat

def Double.render (x : Double) : String := BinaryFormat.double.render x.bits.toNat

end JvmCalls
