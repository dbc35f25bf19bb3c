/-!
# Operands

* `AccessSize` : the data width of an operand access; `bytes?` and `bits?` are its size, which an
  unsized access does not have;
* `Operand` : one operand of a decoded instruction; `mode` is its addressing mode and `register?`
  the register that it names.
-/

namespace SuperH

/-- The data width of an operand access. -/
inductive AccessSize where
  | unsized | byte | word | long
  deriving DecidableEq, Repr, Inhabited

namespace AccessSize

def bytes? : AccessSize → Option Nat
  | .unsized => none
  | .byte => some 1
  | .word => some 2
  | .long => some 4

def bits? (size : AccessSize) : Option Nat := size.bytes?.map (· * 8)

def all : List AccessSize := [.unsized, .byte, .word, .long]

/-- The word that stands for the size in a record. -/
def tag : AccessSize → String
  | .unsized => "invalid"
  | .byte => "b"
  | .word => "w"
  | .long => "l"

def ofTag? (tag : String) : Option AccessSize := all.find? (·.tag == tag)

/-- The size as messages show it. -/
def title : AccessSize → String
  | .unsized => "Invalid"
  | .byte => "B"
  | .word => "W"
  | .long => "L"

end AccessSize

/-- How an operand names its place or value. -/
inductive AddressingMode where
  | regDirect | regIndirect | regIndirectPostInc | regIndirectPreDec | regIndirectDisp
  | regIndirectIndexed | gbrIndirectDisp | gbrIndirectIndexed | pcRelativeDisp | pcRelative8
  | pcRelative12 | pcRelativeReg | immU | immS
  deriving DecidableEq, Repr, Inhabited

/-- The mode as messages show it. -/
def AddressingMode.title : AddressingMode → String
  | .regDirect => "RegDirect"
  | .regIndirect => "RegIndirect"
  | .regIndirectPostInc => "RegIndirectPostInc"
  | .regIndirectPreDec => "RegIndirectPreDec"
  | .regIndirectDisp => "RegIndirectDisp"
  | .regIndirectIndexed => "RegIndirectIndexed"
  | .gbrIndirectDisp => "GbrIndirectDisp"
  | .gbrIndirectIndexed => "GbrIndirectIndexed"
  | .pcRelativeDisp => "PcRelativeDisp"
  | .pcRelative8 => "PcRelative8"
  | .pcRelative12 => "PcRelative12"
  | .pcRelativeReg => "PcRelativeReg"
  | .immU => "ImmU"
  | .immS => "ImmS"

/-- One operand. Registers are named by their index. -/
inductive Operand where
  /-- `Rn` -/
  | reg (n : Nat)
  /-- `@Rn` -/
  | indirect (n : Nat)
  /-- `@Rn+` -/
  | postInc (n : Nat)
  /-- `@-Rn` -/
  | preDec (n : Nat)
  /-- `@(disp, Rn)`, the displacement counting accesses -/
  | displaced (n disp : Nat)
  /-- `@(R0, Rn)` -/
  | indexed (n : Nat)
  /-- `@(disp, GBR)`, the displacement counting accesses -/
  | gbrDisp (disp : Nat)
  /-- `@(R0, GBR)` -/
  | gbrIndexed
  /-- `@(disp, PC)`, the displacement counting accesses -/
  | pcDisp (disp : Nat)
  /-- the raw 8-bit branch displacement, counting words -/
  | pcRel8 (disp : Nat)
  /-- the raw 12-bit branch displacement, counting words -/
  | pcRel12 (disp : Nat)
  /-- `Rn + PC` -/
  | pcReg (n : Nat)
  /-- an unsigned immediate -/
  | immU (v : Nat)
  /-- a signed immediate -/
  | immS (v : Int)
  deriving DecidableEq, Repr, Inhabited

namespace Operand

def mode : Operand → AddressingMode
  | .reg _ => .regDirect
  | .indirect _ => .regIndirect
  | .postInc _ => .regIndirectPostInc
  | .preDec _ => .regIndirectPreDec
  | .displaced _ _ => .regIndirectDisp
  | .indexed _ => .regIndirectIndexed
  | .gbrDisp _ => .gbrIndirectDisp
  | .gbrIndexed => .gbrIndirectIndexed
  | .pcDisp _ => .pcRelativeDisp
  | .pcRel8 _ => .pcRelative8
  | .pcRel12 _ => .pcRelative12
  | .pcReg _ => .pcRelativeReg
  | .immU _ => .immU
  | .immS _ => .immS

def register? : Operand → Option Nat
  | .reg n | .indirect n | .postInc n | .preDec n | .displaced n _ | .indexed n | .pcReg n => some n
  | _ => none

end Operand
end SuperH
