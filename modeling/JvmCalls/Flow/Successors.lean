import JvmCalls.ClassFile.Basic

/-!
Control flow between instructions. Every instruction is a node of the flow,
next to the entry and the exit of the method. Normal flow follows branches
and falls through to the next instruction. Exceptional flow is kept apart.
-/
namespace JvmCalls

inductive FlowNode where
  | entry
  | instr (address : Address)
  | exit
deriving DecidableEq, Repr, Inhabited

def FlowNode.render : FlowNode → String
  | entry => "<entry>"
  | instr address => toString address
  | exit => "<exit>"

inductive FlowError where
  | code (error : ClassFileError)
  /-- No instruction stands at the address. -/
  | instructionNotFound (address : Address)
  /-- An instruction leads to an address where no instruction stands. -/
  | branchTargetNotFound (source : Address)
  /-- The method has no code. -/
  | noCode
  /-- No path leads from the entry to the node. -/
  | nodeNotReached (node : FlowNode)
  /-- No method was analysed, or the last analysis failed. -/
  | notAnalyzed (node : FlowNode)
deriving DecidableEq, Repr

def FlowError.message : FlowError → String
  | code error => "bytecode error: " ++ error.message
  | instructionNotFound address => "instruction not found: " ++ toString address
  | branchTargetNotFound source =>
    "instruction not found: branch target of instruction at " ++ toString source
  | noCode => "the method has no implementation"
  | nodeNotReached node => "control flow node not reached: " ++ node.render
  | notAnalyzed node =>
    "control flow node not reached: " ++ node.render ++ " (no method analyzed)"

def MethodInfo.requireCode (m : MethodInfo) : Except FlowError Code :=
  match m.code with
  | some code => .ok code
  | none => .error .noCode

/-- Why control goes from one instruction to another. -/
inductive Branch where
  | ifTrue (comparison : Comparison) (operand : BranchOperand)
  | ifFalse (comparison : Comparison) (operand : BranchOperand)
  | switchCase (key : Int32)
  | switchDefault
  | jump
  | sequence
  | ret
  | catchType (type : String)
  | catchAll
deriving DecidableEq, Repr, Inhabited

def Comparison.title : Comparison → String
  | eq => "Eq"
  | ne => "Ne"
  | lt => "Lt"
  | ge => "Ge"
  | gt => "Gt"
  | le => "Le"

def BranchOperand.title : BranchOperand → String
  | zero => "Zero"
  | int => "Int"
  | reference => "Reference"
  | null => "Null"

namespace Branch

def render : Branch → String
  | ifTrue _ _ => "<true>"
  | ifFalse _ _ => "<false>"
  | switchCase key => "<switch " ++ toString key.toInt ++ ">"
  | switchDefault => "<switch _>"
  | jump => "<jmp>"
  | sequence => "<seq>"
  | ret => "<ret>"
  | catchType type => "<catch " ++ type ++ ">"
  | catchAll => "<catch *>"

/-- The branch with all that is known about it. -/
def describe : Branch → String
  | ifTrue comparison operand =>
    "IfTrue(" ++ comparison.title ++ ", " ++ operand.title ++ ")"
  | ifFalse comparison operand =>
    "IfFalse(" ++ comparison.title ++ ", " ++ operand.title ++ ")"
  | switchCase key => "Switch(" ++ toString key.toInt ++ ")"
  | switchDefault => "SwitchDefault"
  | jump => "Jmp"
  | sequence => "Sequence"
  | ret => "Return"
  | catchType type => "Catch(" ++ Text.quoted type ++ ")"
  | catchAll => "CatchAll"

end Branch

namespace PlacedInstr

/-- The target of a stored offset. -/
def target? (p : PlacedInstr) (offset : Int) : Option Address := p.address.shift? offset

/-- Where normal flow goes, the exit of the method apart. A branch over the
start of the code has no target. The default of a switch comes before its
cases. -/
def branches (p : PlacedInstr) : List (Branch × Option Address) :=
  match p.instr with
  | .goto offset => [(.jump, p.target? offset.toInt)]
  | .gotoWide offset => [(.jump, p.target? offset.toInt)]
  | .branch comparison operand offset =>
    [(.ifTrue comparison operand, p.target? offset.toInt),
     (.ifFalse comparison operand, some p.next)]
  | .tableSwitch default low offsets => switch default (Instr.tableCases low offsets)
  | .lookupSwitch default pairs => switch default pairs
  | .ret _ => []
  | .athrow => []
  | _ => [(.sequence, some p.next)]
where
  switch (default : Int32) (cases : List (Int32 × Int32)) : List (Branch × Option Address) :=
    (.switchDefault, p.target? default.toInt) ::
      cases.map fun (key, offset) => (.switchCase key, p.target? offset.toInt)

end PlacedInstr

namespace Code

/-- A target must be the address of an instruction. -/
def checkTarget (c : Code) (source : Address) (b : Branch × Option Address) :
    Except FlowError (Branch × Option Address) :=
  match b.2 with
  | some target =>
    if (c.instrAt? target).isSome then .ok (b.1, some target)
    else .error (.branchTargetNotFound source)
  | none => .error (.branchTargetNotFound source)

/-- The normal successors of an instruction. The exit of the method has no
address. -/
def successors (c : Code) (p : PlacedInstr) :
    Except FlowError (List (Branch × Option Address)) :=
  if p.instr.isReturn then .ok [(.ret, none)]
  else p.branches.mapM (c.checkTarget p.address)

/-- Where exceptions thrown at an address may go, in table order. -/
def exceptionBranches (c : Code) (a : Address) : List (Branch × Address) :=
  (c.handlersCovering a).map fun h =>
    (match h.catchType with
      | some type => .catchType type
      | none => .catchAll,
     h.handler)

end Code

end JvmCalls
