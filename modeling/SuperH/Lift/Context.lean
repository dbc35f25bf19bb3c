import SuperH.Cpu.Access

/-!
# The instruction at hand

What the meaning of an instruction is built from: its operands by position, each read and written at
the instruction's access size unless another is asked for.
-/

namespace SuperH

/-- An instruction and its address. -/
structure Context where
  insn : Insn
  pc : Nat

namespace Context

/-- The operand at a position. -/
def operand (cx : Context) (index : Nat) : Build Operand :=
  match cx.insn.operands[index]? with
  | some operand => .ok operand
  | none => .error (.missingOperand cx.insn.mnemonic index)

/-- The register that the operand at a position names. -/
def register? (cx : Context) (index : Nat) : Option Nat :=
  cx.insn.operands[index]?.bind Operand.register?

def read (cx : Context) (index : Nat) (size : AccessSize := cx.insn.size) :
    Build Cpu.OperandRead := do
  Cpu.read (← cx.operand index) size cx.pc

/-- The value of the operand at a position. -/
def value (cx : Context) (index : Nat) (size : AccessSize := cx.insn.size) : Build Expr := do
  return (← cx.read index size).value

def write (cx : Context) (index : Nat) (value : Expr) (size : AccessSize := cx.insn.size) :
    Build Effect := do
  Cpu.write (← cx.operand index) value size cx.pc

def address (cx : Context) (index : Nat) : Build Expr := do
  Cpu.address (← cx.operand index) cx.insn.size cx.pc

end Context
end SuperH
