import JvmCalls.Pattern.Basic

/-!
Tokens of the text of a pattern. Escapes, counted repetitions and set
operations are not part of the language, and a text with one of them is
refused.
-/
namespace JvmCalls

inductive Repetition where
  | star | plus | optional
deriving DecidableEq, Repr

def Repetition.apply : Repetition → Pattern → Pattern
  | star, p => .star p
  | plus, p => p.plus
  | optional, p => p.optional

inductive PatternToken where
  | atom (pattern : Pattern)
  | opening
  | closing
  | bar
  | repetition (kind : Repetition)
deriving DecidableEq, Repr

namespace PatternToken

def character (c : Char) : PatternToken :=
  match c with
  | '.' => atom (.one .anyButNewline)
  | '^' => atom .textStart
  | '$' => atom .textEnd
  | '(' => opening
  | ')' => closing
  | '|' => bar
  | c => atom (.one (.single c))

mutual

/-- The tokens of a text. A question mark after a repetition asks for the
shortest match, which makes no difference to whether there is one. -/
def scan : List Char → Option (List PatternToken)
  | [] => some []
  | '*' :: '?' :: rest => (scan rest).map (repetition .star :: ·)
  | '*' :: rest => (scan rest).map (repetition .star :: ·)
  | '+' :: '?' :: rest => (scan rest).map (repetition .plus :: ·)
  | '+' :: rest => (scan rest).map (repetition .plus :: ·)
  | '?' :: '?' :: rest => (scan rest).map (repetition .optional :: ·)
  | '?' :: rest => (scan rest).map (repetition .optional :: ·)
  | '[' :: '^' :: rest => scanSet true true [] rest
  | '[' :: rest => scanSet false true [] rest
  | '\\' :: _ => none
  | '\x7b' :: _ => none
  | c :: rest => (scan rest).map (character c :: ·)

/-- The rest of a set, up to its closing bracket. At the start, hyphens
stand for themselves, and so does a closing bracket that comes first of
all. -/
def scanSet (negated atStart : Bool) (ranges : List (Char × Char)) :
    List Char → Option (List PatternToken)
  | [] => none
  | c :: rest =>
    if c = ']' then
      if ranges.isEmpty then scanSet negated false [(c, c)] rest
      else (scan rest).map (atom (.one ⟨negated, ranges⟩) :: ·)
    else if c = '-' && atStart then scanSet negated true ((c, c) :: ranges) rest
    else if c = '[' || c = '\\' then none
    else if (c = '&' || c = '~') && rest.head? = some c then none
    else
      match rest with
      | '-' :: '-' :: _ => none
      | '-' :: ']' :: rest =>
        (scan rest).map (atom (.one ⟨negated, ('-', '-') :: (c, c) :: ranges⟩) :: ·)
      | '-' :: high :: rest =>
        if c ≤ high then scanSet negated false ((c, high) :: ranges) rest else none
      | rest => scanSet negated false ((c, c) :: ranges) rest

end

end PatternToken

end JvmCalls
