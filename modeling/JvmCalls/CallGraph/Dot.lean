import JvmCalls.CallGraph.Basic
import JvmCalls.Hierarchy.Dot

/-! Call graphs in the format of graph drawing tools. -/
namespace JvmCalls

def MethodSignature.dotAttributes (s : MethodSignature) : String :=
  if s.isComplete then "color=black,shape=box" else "color=red,shape=box"

/-- Calls without a known target are red, those that may be left out are
dashed. -/
def Call.dotAttributes (c : Call) : String :=
  "color=" ++ (if c.isConcrete then "black" else "red") ++
    ",style=" ++ (if c.controlFlowDependent then "dashed" else "solid")

/-- The graph as a text. Methods are numbered by position, and a call that
is there several times is drawn several times. -/
def CallGraph.dot (g : CallGraph) : String :=
  "digraph \x7b\n  rankdir=LR;\n" ++
    String.join (g.methods.toList.zipIdx.map fun (s, i) =>
      Dot.node i s.render s.dotAttributes) ++
    String.join (g.edges.toList.map fun e =>
      Dot.edge e.source e.target e.call.dotAttributes) ++
    "\x7d"

end JvmCalls
