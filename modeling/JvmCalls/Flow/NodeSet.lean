/-!
Finite sets of small numbers, one bit for each member. A subset of a set is
never the larger number, and it is the smaller one unless both are equal.
-/
namespace JvmCalls

structure NodeSet where
  bits : Nat
deriving DecidableEq, Repr, Inhabited

namespace NodeSet

def contains (s : NodeSet) (i : Nat) : Bool := s.bits.testBit i

def empty : NodeSet := ⟨0⟩

def insert (s : NodeSet) (i : Nat) : NodeSet := ⟨s.bits ||| 1 <<< i⟩

def inter (s t : NodeSet) : NodeSet := ⟨s.bits &&& t.bits⟩

/-- The members below a bound, in ascending order. -/
def toList (s : NodeSet) (bound : Nat) : List Nat := (List.range bound).filter s.contains

@[simp] theorem contains_empty (i : Nat) : empty.contains i = false := by
  simp [contains, empty]

@[simp] theorem contains_insert (s : NodeSet) (i j : Nat) :
    (s.insert i).contains j = (s.contains j || decide (i = j)) := by
  simp [contains, insert, Nat.one_shiftLeft, Nat.testBit_two_pow]

@[simp] theorem contains_inter (s t : NodeSet) (i : Nat) :
    (s.inter t).contains i = (s.contains i && t.contains i) := by
  simp [contains, inter]

end NodeSet

end JvmCalls
