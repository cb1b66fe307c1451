import JvmCalls.CallGraph.Basic
import JvmCalls.Resolver.Calls

/-!
A resolver at work. It visits methods one after the other and adds their
calls to a graph. Between two visits it keeps what it found out about the
method it entered last, and which methods it has come to.
-/
namespace JvmCalls

/-- What a resolver keeps. A method that is entered replaces the stacks of
the one before, and the dominators only if the options ask for them. -/
structure ResolverState where
  multiType : Option Frames := none
  particular : Option Frames := none
  dominators : Dominators
  /-- The dominators are those of the method that was entered last. -/
  hasDominators : Bool := false
  /-- The methods with code that were come to. Whether they are admitted was asked. -/
  asked : History := []
deriving Inhabited

/-- What the state tells about the method that was entered last. -/
def ResolverState.facts (s : ResolverState) : MethodFacts :=
  ⟨s.multiType, s.particular, if s.hasDominators then some s.dominators else none⟩

/-- The work of a resolver: what it keeps, and the graph that it adds calls
to. -/
structure Resolution where
  state : ResolverState
  graph : CallGraph := .empty
deriving Inhabited

namespace Resolver

def initialState (r : Resolver) : ResolverState where
  dominators := .new r.options.ignoreExceptionEdges

/-- Enters a method: evaluates it and, if the options ask for it, analyses
its flow with the calculator that served the methods before. -/
def enter (r : Resolver) (owner : ClassFile) (m : MethodInfo) (c : Code) (s : ResolverState) :
    Traced ResolverState := do
  let multiType ← r.evaluate r.multiType "multi-type" owner m
  let particular ← r.evaluate r.particular "particular" owner m
  if r.options.useDominatorAnalysis then
    match ← s.dominators.analyze (m.signature owner) c with
    | (.ok (), dominators) =>
      return { s with multiType, particular, dominators, hasDominators := true }
    | (.error e, dominators) =>
      reportDominatorFailure (m.signature owner) e
      return { s with multiType, particular, dominators, hasDominators := false }
  else return { s with multiType, particular, hasDominators := false }

/-- Adds the calls of an instruction of the method that was entered last. -/
def visitInstr (r : Resolver) (owner : ClassFile) (signature : MethodSignature) (code : Code)
    (work : Resolution) (p : PlacedInstr) : Traced Resolution := do
  let calls ← r.callsOfInstr owner signature code work.state.facts p
  return { work with graph := work.graph.addAll calls }

/-- Adds the calls of a method. A method without code, or one that is not
admitted, is not entered. -/
def visitMethod (r : Resolver) (owner : ClassFile) (work : Resolution) (m : MethodInfo) :
    Traced Resolution := do
  match m.code with
  | none => return work
  | some code =>
    let state := { work.state with asked := work.state.asked ++ [(owner, m)] }
    if ← r.isAdmitted work.state.asked owner m then
      let signature := m.signature owner
      Traced.log .trace ("resolving calls of " ++ signature.render)
      let state ← r.enter owner m code state
      code.instrs.foldlM (r.visitInstr owner signature code) { work with state }
    else return { work with state }

/-- Adds the calls of a class. -/
def visitClass (r : Resolver) (work : Resolution) (c : ClassFile) : Traced Resolution := do
  Traced.log .debug ("resolving calls of class " ++ c.name)
  c.methods.foldlM (r.visitMethod c) work

/-- Adds the calls of the whole repository. -/
def visitAll (r : Resolver) (work : Resolution) : Traced Resolution :=
  r.classes.foldlM r.visitClass work

end Resolver

end JvmCalls
