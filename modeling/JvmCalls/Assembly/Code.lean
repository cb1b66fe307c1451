import JvmCalls.ClassFile.Basic

/-!
Assembling the code of a method. Instructions are laid out as they are
emitted, and branches name labels that may be placed later. An unresolved
branch already has the size of what it becomes, so addresses are final from
the start and only the offsets wait until the code is finished.
-/
namespace JvmCalls

/-- An emitted instruction. Branches still name labels. -/
inductive Pending where
  | ready (instr : Instr)
  | branch (comparison : Comparison) (operand : BranchOperand) (target : Label)
  | goto (target : Label)
  | tableSwitch (low : Int32) (targets : List Label) (default : Label)
  | lookupSwitch (pairs : List (Int32 × Label)) (default : Label)
deriving DecidableEq, Repr, Inhabited

/-- Size of the instruction once its labels are resolved. -/
def Pending.sizeAt (p : Pending) (address : Address) : Nat :=
  match p with
  | ready instr => instr.sizeAt address
  | branch _ _ _ => 3
  | goto _ => 3
  | tableSwitch low targets _ => (Instr.tableSwitch 0 low (targets.map fun _ => 0)).sizeAt address
  | lookupSwitch pairs _ => (Instr.lookupSwitch 0 (pairs.map fun _ => (0, 0))).sizeAt address

/-- A protected range and its handler, by labels. -/
structure ProtectedRange where
  start : Label
  stop : Label
  handler : Label
  catchType : Option String
deriving DecidableEq, Repr, Inhabited

/-- Code under construction. Label number `i` is created by the `i`-th
request and has an address once it is placed. -/
structure CodeBuilder where
  pool : ConstantPool
  pending : Array (Address × Pending) := #[]
  next : Address := Address.entry
  labels : Array (Option Address) := #[]
  ranges : Array ProtectedRange := #[]
  lines : Array LineNumber := #[]
  maxStack : UInt16 := 0
  maxLocals : UInt16 := 0
deriving Inhabited

/-- A step of assembly: a result or an error, and the builder afterwards in
both cases. -/
abbrev Assembler := ExceptT ClassFileError (StateM CodeBuilder)

/-- The requests that a builder takes. -/
inductive CodeOp where
  | instr (instr : Instr)
  | invokeStatic (owner name descriptor : String)
  | invokeSpecial (owner name descriptor : String)
  | invokeVirtual (owner name descriptor : String)
  | invokeInterface (owner name descriptor : String)
  | invokeDynamic (bootstrap : UInt16) (name descriptor : String)
  | branch (comparison : Comparison) (operand : BranchOperand) (target : Label)
  | goto (target : Label)
  | tableSwitch (low : Int32) (targets : List Label) (default : Label)
  | lookupSwitch (pairs : List (Int32 × Label)) (default : Label)
  | newLabel
  | placeLabel (label : Label)
  | line (number : UInt16)
  | tryCatch (start stop handler : Label) (catchType : Option String)
  | maxStack (slots : UInt16)
  | maxLocals (slots : UInt16)
deriving DecidableEq, Repr, Inhabited

namespace CodeBuilder

def emit (b : CodeBuilder) (p : Pending) : CodeBuilder :=
  { b with
    pending := b.pending.push (b.next, p)
    next := b.next.advance (p.sizeAt b.next) }

/-- A label is placed at the next instruction, once. -/
def placeLabel (label : Label) : Assembler Unit := fun b =>
  match b.labels[label.number]? with
  | some none => (.ok (), { b with labels := b.labels.setIfInBounds label.number (some b.next) })
  | _ => (.error (.undefinedLabel label), b)

/-- Works on the pool of the class. -/
def onPool {α : Type} (action : PoolM α) : Assembler α := fun b =>
  let (result, pool) := action b.pool
  (result, { b with pool })

/-- Emits a call to a method that is named in the pool. -/
def invoke (owner name descriptor : String) (isInterface : Bool) (instr : PoolIndex → Instr) :
    Assembler Unit := do
  let index ← onPool (ConstantPool.pushMethodRef owner name descriptor isInterface)
  modify (·.emit (.ready (instr index)))

/-- Interface calls store the slots of arguments and receiver in one
byte. -/
def invokeInterface (owner name descriptor : String) : Assembler Unit := do
  let parsed ← MethodDescriptor.ofString descriptor
  let slots := parsed.parameterSlots + 1
  if slots < 256 then
    invoke owner name descriptor true fun index => .invokeInterface index slots.toUInt8
  else throw (.invalidDescriptor descriptor)

/-- Carries out one request. -/
def step : CodeOp → Assembler Unit
  | .instr instr => modify (·.emit (.ready instr))
  | .invokeStatic owner name descriptor => invoke owner name descriptor false .invokeStatic
  | .invokeSpecial owner name descriptor => invoke owner name descriptor false .invokeSpecial
  | .invokeVirtual owner name descriptor => invoke owner name descriptor false .invokeVirtual
  | .invokeInterface owner name descriptor => invokeInterface owner name descriptor
  | .invokeDynamic bootstrap name descriptor => do
    let index ← onPool (ConstantPool.pushInvokeDynamic bootstrap name descriptor)
    modify (·.emit (.ready (.invokeDynamic index)))
  | .branch comparison operand target => modify (·.emit (.branch comparison operand target))
  | .goto target => modify (·.emit (.goto target))
  | .tableSwitch low targets default => modify (·.emit (.tableSwitch low targets default))
  | .lookupSwitch pairs default => modify (·.emit (.lookupSwitch pairs default))
  | .newLabel => modify fun b => { b with labels := b.labels.push none }
  | .placeLabel label => placeLabel label
  | .line number => modify fun b => { b with lines := b.lines.push ⟨b.next, number⟩ }
  | .tryCatch start stop handler catchType =>
    modify fun b => { b with ranges := b.ranges.push ⟨start, stop, handler, catchType⟩ }
  | .maxStack slots => modify fun b => { b with maxStack := slots }
  | .maxLocals slots => modify fun b => { b with maxLocals := slots }

/-- The address of a placed label. -/
def resolve (b : CodeBuilder) (label : Label) : Except ClassFileError Address :=
  match b.labels[label.number]? with
  | some (some address) => .ok address
  | _ => .error (.undefinedLabel label)

/-- The distance to a label, in 32 bits. -/
def offset (b : CodeBuilder) (source : Address) (label : Label) : Except ClassFileError Int32 := do
  let target ← b.resolve label
  return source.distanceTo target

/-- The distance to a label, if it fits into the 16 bits of a branch. -/
def shortOffset (b : CodeBuilder) (source : Address) (label : Label) :
    Except ClassFileError Int16 := do
  let distance ← b.offset source label
  if -32768 ≤ distance.toInt ∧ distance.toInt ≤ 32767 then
    return Int16.ofInt distance.toInt
  else throw (.branchOutOfRange source)

/-- Replaces labels by offsets. The default of a switch is resolved before
its cases. -/
def finish (b : CodeBuilder) (source : Address) : Pending → Except ClassFileError Instr
  | .ready instr => .ok instr
  | .branch comparison operand target => do
    let offset ← b.shortOffset source target
    return .branch comparison operand offset
  | .goto target => do
    let offset ← b.shortOffset source target
    return .goto offset
  | .tableSwitch low targets default => do
    let default ← b.offset source default
    let offsets ← targets.mapM (b.offset source)
    return .tableSwitch default low offsets
  | .lookupSwitch pairs default => do
    let default ← b.offset source default
    let pairs ← pairs.mapM fun (key, label) => do
      let offset ← b.offset source label
      return (key, offset)
    return .lookupSwitch default pairs

/-- Replaces the labels of an exception table entry by addresses. -/
def finishRange (b : CodeBuilder) (r : ProtectedRange) :
    Except ClassFileError ExceptionHandler := do
  let start ← b.resolve r.start
  let stop ← b.resolve r.stop
  let handler ← b.resolve r.handler
  return ⟨start, stop, handler, r.catchType⟩

/-- The finished code. Instructions are finished before exception table
entries. -/
def build (b : CodeBuilder) : Except ClassFileError Code := do
  let instrs ← b.pending.toList.mapM fun (address, p) => do
    let instr ← b.finish address p
    return (⟨address, instr⟩ : PlacedInstr)
  let handlers ← b.ranges.toList.mapM b.finishRange
  return {
    maxStack := b.maxStack
    maxLocals := b.maxLocals
    instrs
    handlers
    lines := b.lines.toList }

end CodeBuilder

end JvmCalls
