import JvmCalls.Resolver.Dispatch
import JvmCalls.Resolver.Operands

/-!
The calls of a method, of a class and of a whole repository. One invocation
gives a call for each of its targets. All calls of an invocation are made
before the first of them is shown to a visitor.
-/
namespace JvmCalls

/-- An instruction that calls, where it stands, and what is known there. -/
structure Invocation where
  owner : ClassFile
  facts : MethodFacts
  location : CodeLocation
  instr : Instr
deriving Inhabited

/-- The questions that coming to a method raises: one if it has code. -/
def MethodInfo.questions (owner : ClassFile) (m : MethodInfo) : History :=
  if m.code.isSome then [(owner, m)] else []

def ClassFile.questions (c : ClassFile) : History := c.methods.flatMap (MethodInfo.questions c)

/-- Each item with the history in which it is come to, where the items
before it have raised their questions. -/
def History.along {α : Type} (questions : α → History) : History → List α → List (History × α)
  | _, [] => []
  | asked, a :: rest => (asked, a) :: along questions (asked ++ questions a) rest

namespace Resolver

/-- Looks the target of a call up in the repository. -/
def target (r : Resolver) (s : MethodSignature) : Traced CallTarget := do
  match s.owner.bind r.repository.definition?, s.name, s.descriptor with
  | some owner, some name, some descriptor =>
    match owner.findMethod? name descriptor with
    | some m =>
      Traced.count .concreteCall
      return .concrete s owner m
    | none =>
      Traced.log .debug ("method " ++ s.render ++ " not found")
      Traced.count .missingMethod
      Traced.count .symbolicCall
      return .symbolic s
  | _, _, _ =>
    Traced.count .symbolicCall
    return .symbolic s

/-- A call of the given method. There is none where the options leave out
calls with unknown parts. -/
def call (r : Resolver) (i : Invocation) (s : MethodSignature) (nullness : Nullness)
    (runtimeTypeDependent : Bool) (operands : Operands) : Traced (List Call) := do
  if r.options.skipIncompleteCalls && !s.isComplete then
    Traced.log .trace
      ("skipping incomplete call to " ++ s.render ++ " at " ++ i.location.render)
    Traced.count .incompleteCallSkipped
    return []
  let target ← r.target s
  let controlFlowDependent ← r.isControlFlowDependent i.facts i.location.address
  return [{ caller := i.location, target, instr := i.instr, nullness, controlFlowDependent,
            runtimeTypeDependent, receiver := operands.receiver,
            arguments := operands.arguments, result := operands.result }]

/-- The call of an instruction whose constant is not what it should be:
nothing is known about its target. -/
def malformedCall (r : Resolver) (i : Invocation) (e : ClassFileError) :
    Traced (List Call) := do
  Traced.log .warn ("malformed invocation at " ++ i.location.render ++ ": " ++ e.message)
  Traced.count .malformedInvocation
  r.call i .unknown .maybe false {}

/-- The call of a site that is bound at run time. -/
def dynamicCalls (r : Resolver) (i : Invocation) (descriptor : String) (d : MethodDescriptor) :
    Traced (List Call) :=
  r.call i (dynamicSignature descriptor) .never false
    (i.facts.operands i.location.address d false)

/-- The targets of a call by method reference, and whether they depend on
the runtime type of the receiver. -/
def selected (r : Resolver) (i : Invocation) (kind : InvokeKind) (ref : MethodRef)
    (d : MethodDescriptor) (operands : Operands) : Traced (List Selected × Bool) := do
  match kind with
  | .static =>
    let owner ← r.repository.selectStatic ref
    return ([⟨owner, .never⟩], false)
  | .special =>
    let nullness := (operands.receiver.map Value.nullness).getD .maybe
    let owners ← r.repository.selectSpecial i.owner ref
    let owners := if owners.isEmpty then [ref.owner] else owners
    return (owners.map fun owner => ⟨owner, nullness⟩, false)
  | _ =>
    let receivers := i.facts.receivers i.location.address d.parameterSlots ref.owner
    let targets ← r.dispatch ref receivers
    return (targets, 1 < receivers.length)

/-- The calls of a method reference, one for each target. -/
def referenceCalls (r : Resolver) (i : Invocation) (kind : InvokeKind) (ref : MethodRef)
    (d : MethodDescriptor) : Traced (List Call) := do
  let operands := i.facts.operands i.location.address d (kind != .static)
  let (targets, runtimeTypeDependent) ← r.selected i kind ref d operands
  Traced.gather targets fun t =>
    r.call i (.of t.owner ref.name ref.descriptor) t.nullness runtimeTypeDependent operands

/-- The calls of an invocation, with its kind and the index of its
constant. -/
def invocationCalls (r : Resolver) (i : Invocation) (kind : InvokeKind) (index : PoolIndex) :
    Traced (List Call) :=
  match kind with
  | .dynamic =>
    match (do
      let (_, descriptor) ← i.owner.constants.invokeDynamic index
      return (descriptor, ← MethodDescriptor.ofString descriptor) :
        Except ClassFileError (String × MethodDescriptor)) with
    | .ok (descriptor, parsed) => r.dynamicCalls i descriptor parsed
    | .error e => r.malformedCall i e
  | kind =>
    match (do
      let ref ← i.owner.constants.methodRef index
      return (ref, ← ref.parsedDescriptor) :
        Except ClassFileError (MethodRef × MethodDescriptor)) with
    | .ok (ref, parsed) => r.referenceCalls i kind ref parsed
    | .error e => r.malformedCall i e

/-- Shows a call to the visitors. What is kept of it has its values only if
the options say so. -/
def report (r : Resolver) (c : Call) : Traced (List Call) := do
  Traced.log .trace c.render
  Traced.emitAll ((List.range r.visitors).map fun visitor => .notified visitor c)
  return [if r.options.clearCallValuesAfterVisit then c.clearValues else c]

def callsOfInstr (r : Resolver) (owner : ClassFile) (signature : MethodSignature) (code : Code)
    (facts : MethodFacts) (p : PlacedInstr) : Traced (List Call) := do
  match p.instr.invocation? with
  | none => return []
  | some (kind, index) =>
    let location : CodeLocation := ⟨signature, p.address, code.lineAt? p.address⟩
    let calls ← r.invocationCalls ⟨owner, facts, location, p.instr⟩ kind index
    Traced.gather calls r.report

/-- Asks whether the calls of a method are to be resolved, after these
questions. -/
def isAdmitted (r : Resolver) (asked : History) (owner : ClassFile) (m : MethodInfo) :
    Traced Bool := do
  match r.admits with
  | none => return true
  | some admits =>
    Traced.emit (.asked owner m)
    if admits asked owner m then return true
    Traced.log .trace ("skipping " ++ m.qualifiedName owner)
    return false

/-- The calls of a method in the order of its code. -/
def callsOfMethod (r : Resolver) (asked : History) (owner : ClassFile) (m : MethodInfo) :
    Traced (List Call) := do
  match m.code with
  | none => return []
  | some code =>
    if ← r.isAdmitted asked owner m then
      let signature := m.signature owner
      Traced.log .trace ("resolving calls of " ++ signature.render)
      let facts ← r.facts owner m code
      Traced.gather code.instrs (r.callsOfInstr owner signature code facts)
    else return []

def callsOfClass (r : Resolver) (asked : History) (c : ClassFile) : Traced (List Call) := do
  Traced.log .debug ("resolving calls of class " ++ c.name)
  Traced.gather (History.along (MethodInfo.questions c) asked c.methods)
    fun (asked, m) => r.callsOfMethod asked c m

/-- The classes whose calls are resolved: those that are defined, libraries
only if the options say so. -/
def classes (r : Resolver) : List ClassFile :=
  (r.repository.definedNodes.filter fun n =>
    r.options.includeLibraryClasses || !n.library).filterMap ClassNode.content

/-- The calls of the whole repository. -/
def calls (r : Resolver) (asked : History) : Traced (List Call) :=
  Traced.gather (History.along ClassFile.questions asked r.classes)
    fun (asked, c) => r.callsOfClass asked c

end Resolver

end JvmCalls
