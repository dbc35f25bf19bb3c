import SuperH.Insn.Mnemonic
import SuperH.Insn.Operand

/-!
# Decoded instructions

An `Insn` is what a decoder hands over: a mnemonic, operands in assembler order with the source
first, the data width of the access, and the instruction word for messages.
-/

namespace SuperH

/-- A decoded instruction. -/
structure Insn where
  mnemonic : Mnemonic
  operands : List Operand := []
  size : AccessSize := .unsized
  opcode : Nat := 0
  deriving DecidableEq, Repr, Inhabited

end SuperH
