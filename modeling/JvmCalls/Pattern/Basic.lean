import JvmCalls.Reach

/-!
Patterns of names. A pattern relates positions of a text: from where it
starts to where it may end. A repetition is a walk along these steps, so
repeating a pattern that consumes nothing ends as well.
-/
namespace JvmCalls

/-- A set of characters: those in one of the ranges, or all others. -/
structure CharSet where
  negated : Bool
  ranges : List (Char × Char)
deriving DecidableEq, Repr, Inhabited

namespace CharSet

def single (c : Char) : CharSet := ⟨false, [(c, c)]⟩

/-- Every character but the end of a line. -/
def anyButNewline : CharSet := ⟨true, [('\n', '\n')]⟩

def contains (s : CharSet) (c : Char) : Bool :=
  s.negated != s.ranges.any fun (low, high) => low ≤ c && c ≤ high

end CharSet

inductive Pattern where
  | empty
  | textStart
  | textEnd
  | one (set : CharSet)
  | append (first second : Pattern)
  | either (left right : Pattern)
  | star (body : Pattern)
deriving DecidableEq, Repr, Inhabited

namespace Pattern

def plus (body : Pattern) : Pattern := append body (star body)

def optional (body : Pattern) : Pattern := either body empty

/-- The positions at which a match may end that begins at one of `starts`,
each once if the starts are distinct. -/
def ends (text : Array Char) : Pattern → List Nat → List Nat
  | empty, starts => starts
  | textStart, starts => starts.filter (· == 0)
  | textEnd, starts => starts.filter (· == text.size)
  | one set, starts => (starts.filter fun i => text[i]?.any set.contains).map (· + 1)
  | append first second, starts => ends text second (ends text first starts)
  | either left right, starts => (ends text left starts ++ ends text right starts).eraseDups
  | star body, starts =>
    Reach.collect (fun i => ends text body [i]) (List.range (text.size + 1)) starts

/-- The pattern matches somewhere in the text. -/
def isMatch (p : Pattern) (text : String) : Bool :=
  !(p.ends text.toList.toArray (List.range (text.length + 1))).isEmpty

end Pattern

end JvmCalls
