import JvmCalls.Hierarchy.Basic

/-! Graphs in the format of graph drawing tools. -/
namespace JvmCalls

namespace Dot

/-- Quotes and backslashes are escaped, and a line break becomes a
left-aligned one. -/
def labelChar (c : Char) : List Char :=
  if c = '"' then ['\\', '"']
  else if c = '\\' then ['\\', '\\']
  else if c = '\n' then ['\\', 'l']
  else [c]

def label (s : String) : String := String.ofList (s.toList.flatMap labelChar)

def node (position : Nat) (text attributes : String) : String :=
  "    " ++ toString position ++ " [ label = \"" ++ label text ++ "\" " ++ attributes ++ "]\n"

def edge (source target : Nat) (attributes : String) : String :=
  "    " ++ toString source ++ " -> " ++ toString target ++ " [ " ++ attributes ++ "]\n"

end Dot

/-- Classes of the program are boxes, those of libraries are paler boxes,
and placeholders have no shape. -/
def ClassNode.dotAttributes (n : ClassNode) : String :=
  if n.isDefined then
    if n.library then "color=#00000088,shape=box" else "color=black,shape=box"
  else "color=black,shape=none"

def Inheritance.dotAttributes : Inheritance → String
  | .superclass => "arrowType=empty,style=solid"
  | .interface => "arrowType=empty,style=dashed"

def Hierarchy.dot (h : Hierarchy) : String :=
  "digraph \x7b\n" ++
    String.join (h.nodes.toList.zipIdx.map fun (n, i) => Dot.node i n.name n.dotAttributes) ++
    String.join (h.links.toList.map fun l => Dot.edge l.source l.target l.kind.dotAttributes) ++
    "\x7d\n"

end JvmCalls
