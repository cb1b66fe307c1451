import JvmCalls.Text.Numeral
import JvmCalls.ClassFile.Address
import JvmCalls.ClassFile.Constant

/-!
Instructions. Those that call, branch, return or throw are told apart. Every
other instruction is known by its opcode and length only. Branch offsets are
relative to the address of the instruction.
-/
namespace JvmCalls

/-- Comparison of a conditional branch. -/
inductive Comparison where
  | eq | ne | lt | ge | gt | le
deriving DecidableEq, Repr

/-- What a conditional branch compares. -/
inductive BranchOperand where
  /-- An integer with zero. -/
  | zero
  /-- Two integers. -/
  | int
  /-- Two references. -/
  | reference
  /-- A reference with the null reference. -/
  | null
deriving DecidableEq, Repr

/-- What a method returns, as the instruction has it. -/
inductive ReturnKind where
  | void | int | long | float | double | reference
deriving DecidableEq, Repr

/-- The kinds of calls. They differ in which class is asked for the method
first. -/
inductive InvokeKind where
  | static | special | virtual | interface | dynamic
deriving DecidableEq, Repr

def InvokeKind.all : List InvokeKind := [static, special, virtual, interface, dynamic]

def InvokeKind.render : InvokeKind → String
  | static => "static"
  | special => "special"
  | virtual => "virtual"
  | interface => "interface"
  | dynamic => "dynamic"

/-- An instruction. Its operands are as the class file has them, so that
constants are indices and targets are distances. -/
inductive Instr where
  | invokeVirtual (ref : PoolIndex)
  | invokeSpecial (ref : PoolIndex)
  | invokeStatic (ref : PoolIndex)
  | invokeInterface (ref : PoolIndex) (count : UInt8)
  | invokeDynamic (ref : PoolIndex)
  | branch (comparison : Comparison) (operand : BranchOperand) (offset : Int16)
  | goto (offset : Int16)
  | gotoWide (offset : Int32)
  | tableSwitch (default low : Int32) (offsets : List Int32)
  | lookupSwitch (default : Int32) (pairs : List (Int32 × Int32))
  | ret (kind : ReturnKind)
  | athrow
  | other (opcode length : UInt8)
deriving DecidableEq, Repr, Inhabited

def Comparison.rank : Comparison → UInt8
  | eq => 0
  | ne => 1
  | lt => 2
  | ge => 3
  | gt => 4
  | le => 5

namespace Instr

def opcode : Instr → UInt8
  | invokeVirtual _ => 0xb6
  | invokeSpecial _ => 0xb7
  | invokeStatic _ => 0xb8
  | invokeInterface _ _ => 0xb9
  | invokeDynamic _ => 0xba
  | branch comparison operand _ =>
    match operand with
    | .zero => 0x99 + comparison.rank
    | .int => 0x9f + comparison.rank
    | .reference => 0xa5 + comparison.rank
    | .null => 0xc6 + comparison.rank
  | goto _ => 0xa7
  | gotoWide _ => 0xc8
  | tableSwitch _ _ _ => 0xaa
  | lookupSwitch _ _ => 0xab
  | ret kind =>
    match kind with
    | .int => 0xac
    | .long => 0xad
    | .float => 0xae
    | .double => 0xaf
    | .reference => 0xb0
    | .void => 0xb1
  | athrow => 0xbf
  | other opcode _ => opcode

/-- References are only compared for equality, so every other comparison of
them is named like inequality. -/
def mnemonic : Instr → String
  | invokeVirtual _ => "invokevirtual"
  | invokeSpecial _ => "invokespecial"
  | invokeStatic _ => "invokestatic"
  | invokeInterface _ _ => "invokeinterface"
  | invokeDynamic _ => "invokedynamic"
  | branch comparison operand _ =>
    match operand, comparison with
    | .zero, .eq => "ifeq"
    | .zero, .ne => "ifne"
    | .zero, .lt => "iflt"
    | .zero, .ge => "ifge"
    | .zero, .gt => "ifgt"
    | .zero, .le => "ifle"
    | .int, .eq => "if_icmpeq"
    | .int, .ne => "if_icmpne"
    | .int, .lt => "if_icmplt"
    | .int, .ge => "if_icmpge"
    | .int, .gt => "if_icmpgt"
    | .int, .le => "if_icmple"
    | .reference, .eq => "if_acmpeq"
    | .reference, _ => "if_acmpne"
    | .null, .eq => "ifnull"
    | .null, _ => "ifnonnull"
  | goto _ => "goto"
  | gotoWide _ => "goto_w"
  | tableSwitch _ _ _ => "tableswitch"
  | lookupSwitch _ _ => "lookupswitch"
  | ret kind =>
    match kind with
    | .int => "ireturn"
    | .long => "lreturn"
    | .float => "freturn"
    | .double => "dreturn"
    | .reference => "areturn"
    | .void => "return"
  | athrow => "athrow"
  | other _ _ => "<other>"

/-- Bytes between the opcode of a switch and its table, which starts at a
multiple of four. -/
def switchPadding (address : Address) : Nat := 3 - address.offset % 4

/-- Encoded size at an address. Only switches depend on the address, by
their padding. -/
def sizeAt (i : Instr) (address : Address) : Nat :=
  match i with
  | invokeVirtual _ => 3
  | invokeSpecial _ => 3
  | invokeStatic _ => 3
  | branch _ _ _ => 3
  | goto _ => 3
  | invokeInterface _ _ => 5
  | invokeDynamic _ => 5
  | gotoWide _ => 5
  | tableSwitch _ _ offsets => 1 + switchPadding address + 12 + 4 * offsets.length
  | lookupSwitch _ pairs => 1 + switchPadding address + 8 + 8 * pairs.length
  | ret _ => 1
  | athrow => 1
  | other _ length => length.toNat

/-- Opcodes, among those known by number only, of instructions that can
throw: constant loads, array accesses, integer division, field accesses,
allocation, casts and monitors. -/
def throwingOpcodes : List UInt8 :=
  [0x12, 0x13,
   0x2e, 0x2f, 0x30, 0x31, 0x32, 0x33, 0x34, 0x35,
   0x4f, 0x50, 0x51, 0x52, 0x53, 0x54, 0x55, 0x56,
   0x6c, 0x6d, 0x70, 0x71,
   0xb2, 0xb3, 0xb4, 0xb5,
   0xbb, 0xbc, 0xbd, 0xbe,
   0xc0, 0xc2, 0xc3, 0xc5]

/-- Returns can throw too, when a monitor is still held. -/
def canThrow : Instr → Bool
  | invokeVirtual _ => true
  | invokeSpecial _ => true
  | invokeStatic _ => true
  | invokeInterface _ _ => true
  | invokeDynamic _ => true
  | athrow => true
  | ret _ => true
  | other opcode _ => throwingOpcodes.contains opcode
  | _ => false

/-- Kind and pool index of a call. -/
def invocation? : Instr → Option (InvokeKind × PoolIndex)
  | invokeVirtual ref => some (.virtual, ref)
  | invokeSpecial ref => some (.special, ref)
  | invokeStatic ref => some (.static, ref)
  | invokeInterface ref _ => some (.interface, ref)
  | invokeDynamic ref => some (.dynamic, ref)
  | _ => none

def isInvocation (i : Instr) : Bool := i.invocation?.isSome

/-- Control leaves the method normally. An exception does not count. -/
def isReturn : Instr → Bool
  | ret _ => true
  | _ => false

/-- The cases of a switch between braces, each with its offset, then the
default. -/
def renderCases (cases : List (Int32 × Int32)) (default : Int32) : String :=
  "\x7b " ++ String.join (cases.map fun (key, offset) =>
    toString key.toInt ++ ": " ++ Text.signed offset.toInt ++ ", ") ++
  "default: " ++ Text.signed default.toInt ++ " \x7d"

/-- The keys of a table switch count up from `low`. Past the greatest number
they go on with the least one. -/
def tableCases (low : Int32) (offsets : List Int32) : List (Int32 × Int32) :=
  offsets.zipIdx.map fun (offset, i) => (low + Int32.ofNat i, offset)

def render (i : Instr) : String :=
  match i with
  | invokeInterface ref count =>
    i.mnemonic ++ " #" ++ toString ref ++ ", " ++ toString count
  | invokeVirtual ref => i.mnemonic ++ " #" ++ toString ref
  | invokeSpecial ref => i.mnemonic ++ " #" ++ toString ref
  | invokeStatic ref => i.mnemonic ++ " #" ++ toString ref
  | invokeDynamic ref => i.mnemonic ++ " #" ++ toString ref
  | branch _ _ offset => i.mnemonic ++ " " ++ Text.signed offset.toInt
  | goto offset => i.mnemonic ++ " " ++ Text.signed offset.toInt
  | gotoWide offset => i.mnemonic ++ " " ++ Text.signed offset.toInt
  | tableSwitch default low offsets =>
    i.mnemonic ++ " " ++ renderCases (tableCases low offsets) default
  | lookupSwitch default pairs => i.mnemonic ++ " " ++ renderCases pairs default
  | ret _ => i.mnemonic
  | athrow => i.mnemonic
  | other opcode length =>
    "op_" ++ Text.hexByte opcode ++ " (" ++ toString length ++ " bytes)"

end Instr

/-- An instruction at its address. -/
structure PlacedInstr where
  address : Address
  instr : Instr
deriving DecidableEq, Repr, Inhabited

namespace PlacedInstr

def size (p : PlacedInstr) : Nat := p.instr.sizeAt p.address

/-- The address right after the instruction. -/
def next (p : PlacedInstr) : Address := p.address.advance p.size

def render (p : PlacedInstr) : String := toString p.address ++ ": " ++ p.instr.render

end PlacedInstr

end JvmCalls
