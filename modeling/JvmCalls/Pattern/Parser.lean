import JvmCalls.Pattern.Token

/-!
Reading patterns. Tokens are taken one by one into the innermost open group,
and the groups around it wait on a stack.
-/
namespace JvmCalls

/-- A group that is being read: its finished alternatives, and the parts of
the current one, the latest first. -/
structure OpenGroup where
  alternatives : Option Pattern := none
  parts : List Pattern := []
deriving Inhabited

namespace OpenGroup

/-- The current alternative. -/
def current (g : OpenGroup) : Pattern := g.parts.foldl (fun rest p => .append p rest) .empty

def close (g : OpenGroup) : Pattern :=
  match g.alternatives with
  | some p => .either p g.current
  | none => g.current

def push (g : OpenGroup) (p : Pattern) : OpenGroup := { g with parts := p :: g.parts }

def nextAlternative (g : OpenGroup) : OpenGroup := ⟨some g.close, []⟩

/-- Repeats the latest part. There must be one. -/
def repeatLast? (g : OpenGroup) (kind : Repetition) : Option OpenGroup :=
  match g.parts with
  | [] => none
  | p :: rest => some { g with parts := kind.apply p :: rest }

end OpenGroup

namespace Pattern

/-- Takes tokens into the innermost group. At the end no other group may
be open. -/
def read? : List PatternToken → OpenGroup → List OpenGroup → Option Pattern
  | [], group, [] => some group.close
  | [], _, _ :: _ => none
  | .atom p :: rest, group, outer => read? rest (group.push p) outer
  | .opening :: rest, group, outer => read? rest {} (group :: outer)
  | .closing :: _, _, [] => none
  | .closing :: rest, group, next :: outer => read? rest (next.push group.close) outer
  | .bar :: rest, group, outer => read? rest group.nextAlternative outer
  | .repetition kind :: rest, group, outer =>
    match group.repeatLast? kind with
    | some group => read? rest group outer
    | none => none

/-- The pattern that a text stands for, if it is one. -/
def ofString? (text : String) : Option Pattern := do
  let tokens ← PatternToken.scan text.toList
  read? tokens {} []

/-- The test of names that a text stands for. Searches and graphs take any
such reading of texts, and this is the one for the pattern language
above. -/
def compile? (text : String) : Option (String → Bool) := (ofString? text).map isMatch

end Pattern

end JvmCalls
