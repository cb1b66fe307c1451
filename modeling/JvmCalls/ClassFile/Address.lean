/-!
Positions in the code of a method. An address counts bytes from the start of
the code and fits into one machine word of 64 bits. Branches store signed
distances.
-/
namespace JvmCalls

/-- Byte offset of an instruction in the code of its method. -/
structure Address where
  offset : Nat
deriving DecidableEq, Repr, Inhabited, Hashable

namespace Address

/-- The first instruction of every method stands here. -/
def entry : Address := ⟨0⟩

instance : LE Address := ⟨fun a b => a.offset ≤ b.offset⟩
instance : LT Address := ⟨fun a b => a.offset < b.offset⟩
instance (a b : Address) : Decidable (a ≤ b) := inferInstanceAs (Decidable (a.offset ≤ b.offset))
instance (a b : Address) : Decidable (a < b) := inferInstanceAs (Decidable (a.offset < b.offset))
instance : Ord Address := ⟨fun a b => compare a.offset b.offset⟩
instance : ToString Address := ⟨fun a => toString a.offset⟩

/-- One more than the largest address. -/
def limit : Nat := 1 <<< 64

/-- The target of a branch over a signed distance. There is none before the
start of the code or past the largest address. -/
def shift? (base : Address) (distance : Int) : Option Address :=
  let target := (base.offset : Int) + distance
  if 0 ≤ target ∧ target < limit then some ⟨target.toNat⟩ else none

/-- The distance from one address to another as a branch stores it: in 32
bits. It is exact when both addresses are below `2 ^ 31`. -/
def distanceTo (source target : Address) : Int32 :=
  Int32.ofInt ((target.offset : Int) - source.offset)

/-- The address a number of bytes further on. -/
def advance (a : Address) (bytes : Nat) : Address := ⟨a.offset + bytes⟩

end Address

/-- A position in code under construction, known by the order of its
creation. -/
structure Label where
  number : Nat
deriving DecidableEq, Repr, Inhabited

instance : ToString Label := ⟨fun l => "Label(" ++ toString l.number ++ ")"⟩

end JvmCalls
