import SuperH.Cpu.Registers
import SuperH.Insn.Basic

/-!
# Operand access

How an operand is read, written and located.

* `getReg`, `setReg` : a register by index. A banked one selects its copy when the program runs: bank
  1 is in use in privileged mode with flag RB set;
* `effectiveAddress` : the address of a memory or branch operand, which registers and immediates do
  not have;
* `read`, `write` : an operand's value at an access size, with the effects around the access.
-/

namespace SuperH

/-- What an addressing mode may lack. -/
inductive Access where
  | effectiveAddress | write
  deriving DecidableEq, Repr

/-- The access as messages show it. -/
def Access.name : Access → String
  | .effectiveAddress => "effective address"
  | .write => "write"

/-- Why an instruction has no meaning. -/
inductive LiftError where
  | invalidRegister (index : Nat)
  | invalidAddressingMode (mode : AddressingMode) (access : Access)
  | missingOperand (mnemonic : Mnemonic) (index : Nat)
  | invalidSize (size : AccessSize)
  | invalidInstruction (opcode : Nat)
  deriving DecidableEq, Repr

def LiftError.message : LiftError → String
  | .invalidRegister index => "invalid register R" ++ toString index
  | .invalidAddressingMode mode access =>
    "addressing mode " ++ mode.title ++ " has no " ++ access.name
  | .missingOperand mnemonic index => mnemonic.title ++ " is missing operand " ++ toString index
  | .invalidSize size => "scaling " ++ size.title ++ " cannot size a memory access"
  | .invalidInstruction opcode => "invalid instruction (opcode " ++ hexPadded 4 opcode ++ ")"

/-- The result of building a tree for an instruction. -/
abbrev Build := Except LiftError

namespace Cpu

open SuperH.Expr SuperH.Effect

/-! ## Registers -/

def word (v : Nat) : Expr := const 32 v

/-- Bank 1 is in use. -/
def bank1Selected : Expr := Flag.md.expr.and Flag.rb.expr

/-- The variables of a register that exists twice. -/
def bankPair (index : Nat) : Build (String × String) :=
  match bankName? index 0, bankName? index 1 with
  | some b0, some b1 => .ok (b0, b1)
  | _, _ => .error (.invalidRegister index)

/-- The index names a register of the bank that is not in use. -/
def isOtherBank (index : Nat) : Bool := r0Bank ≤ index && index < regCount

def getReg (index : Nat) : Build Expr := do
  if isBanked index then
    let (b0, b1) ← bankPair index
    return .ite bank1Selected (global b1) (global b0)
  else if index = sr then return statusExpr
  else if isOtherBank index then
    let (b0, b1) ← bankPair (index - r0Bank)
    return .ite Flag.rb.expr (global b0) (global b1)
  else
    match regName? index with
    | some name => return global name
    | none => throw (.invalidRegister index)

def setReg (index : Nat) (value : Expr) : Build Effect := do
  if isBanked index then
    let (b0, b1) ← bankPair index
    return .branch bank1Selected (setGlobal b1 value) (setGlobal b0 value)
  else if index = sr then return setStatus value
  else if isOtherBank index then
    let (b0, b1) ← bankPair (index - r0Bank)
    return .branch Flag.rb.expr (setGlobal b0 value) (setGlobal b1 value)
  else
    match regName? index with
    | some name => return setGlobal name value
    | none => throw (.invalidRegister index)

/-! ## Addresses -/

/-- The bytes of an access, which has to be sized. -/
def accessBytes (size : AccessSize) : Build Nat :=
  match size.bytes? with
  | some n => .ok n
  | none => .error (.invalidSize size)

def accessBits (size : AccessSize) : Build Nat :=
  match size.bits? with
  | some n => .ok n
  | none => .error (.invalidSize size)

/-- A branch displacement: the low `bits` bits of a raw field, signed and counted in words. -/
def branchOffset (bits raw : Nat) (h : 0 < bits := by decide) : Expr :=
  ((const bits raw h).signed 32).shl (word 1)

/-- The address that relative operands count from: four bytes after the instruction. -/
def afterFetch (pc : Expr) : Expr := pc.add (word 4)

/-- The address of an operand of the instruction at `pc`. -/
def effectiveAddress (operand : Operand) (size : AccessSize) (pc : Nat) : Build (Option Expr) := do
  let pc := word pc
  match operand with
  | .indirect n | .postInc n | .preDec n => return some (← getReg n)
  | .displaced n disp =>
    let base ← getReg n
    return some (base.add ((word disp).mul (word (← accessBytes size))))
  | .indexed n =>
    let base ← getReg r0
    return some (base.add (← getReg n))
  | .gbrDisp disp =>
    let base ← getReg gbr
    return some (base.add ((word disp).mul (word (← accessBytes size))))
  | .gbrIndexed =>
    let base ← getReg gbr
    return some (base.add (← getReg r0))
  | .pcDisp disp =>
    let bytes ← accessBytes size
    let base := if size = .long then pc.bitAnd (word 0xfffffffc) else pc
    return some ((afterFetch base).add ((word disp).mul (word bytes)))
  | .pcRel8 disp => return some ((afterFetch pc).add (branchOffset 8 disp))
  | .pcRel12 disp => return some ((afterFetch pc).add (branchOffset 12 disp))
  | .pcReg n => return some ((afterFetch pc).add (← getReg n))
  | .reg _ | .immU _ | .immS _ => return none

/-- The address of an operand that has to have one. -/
def address (operand : Operand) (size : AccessSize) (pc : Nat) : Build Expr := do
  match ← effectiveAddress operand size pc with
  | some addr => return addr
  | none => throw (.invalidAddressingMode operand.mode .effectiveAddress)

/-! ## Values -/

/-- An operand's value and the effects before and after its use. -/
structure OperandRead where
  pre : Option Effect := none
  value : Expr
  post : Option Effect := none

/-- An effect between two others. -/
def around (pre : Option Effect) (target : Effect) (post : Option Effect) : Effect :=
  if pre.isNone && post.isNone then target
  else .sequence (pre.toList ++ [target] ++ post.toList)

/-- An immediate has the width of the access, or of a register where that is not smaller. -/
def immediate (size : AccessSize) (v : Int) : Expr :=
  match size with
  | .byte => signedConst 8 v
  | .word => signedConst 16 v
  | .unsized | .long => signedConst 32 v

/-- The value of a register operand: its low bits, where the access is smaller than a register. -/
def lowBits (size : AccessSize) (value : Expr) : Expr :=
  match size with
  | .byte => value.unsigned 8
  | .word => value.unsigned 16
  | .unsized | .long => value

def read (operand : Operand) (size : AccessSize) (pc : Nat) : Build OperandRead := do
  match operand with
  | .reg n => return { value := lowBits size (← getReg n) }
  | .postInc n =>
    let bytes ← accessBytes size
    let bits ← accessBits size
    let addr ← address operand size pc
    let next := (← getReg n).add (word bytes)
    return { value := .load bits addr, post := some (← setReg n next) }
  | .preDec n =>
    let bytes ← accessBytes size
    let next := (← getReg n).sub (word bytes)
    let pre ← setReg n next
    let bits ← accessBits size
    return { pre := some pre, value := .load bits (← address operand size pc) }
  | .immU v => return { value := immediate size v }
  | .immS v => return { value := immediate size v }
  | _ =>
    let bits ← accessBits size
    return { value := .load bits (← address operand size pc) }

/-- Writes an operand. A register takes a smaller value with its sign. -/
def write (operand : Operand) (value : Expr) (size : AccessSize) (pc : Nat) : Build Effect := do
  match operand with
  | .reg n =>
    match size with
    | .byte | .word => setReg n (value.signed 32)
    | .unsized | .long => setReg n value
  | .immU _ | .immS _ => throw (.invalidAddressingMode operand.mode .write)
  | _ =>
    let access ← read operand size pc
    let target := Effect.store (← address operand size pc) value
    return around access.pre target access.post

end Cpu
end SuperH
