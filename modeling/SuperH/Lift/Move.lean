import SuperH.Lift.Context

/-!
# Moves

Copies of an operand, and rearrangements of the bytes of a register.
-/

namespace SuperH.Lift

open SuperH.Expr SuperH.Effect SuperH.Cpu

/-- The source's register steps after the access, but a load into that register keeps the loaded
value. -/
def postOfMove (source target : Operand) (post : Option Effect) : Option Effect :=
  match source, target with
  | .postInc m, .reg n => if m = n then none else post
  | _, _ => post

/-- MOV and all transfers to and from control registers: copies the source to the target. -/
def move (cx : Context) : Build Effect := do
  let source ← cx.read 0
  let target ← cx.write 1 source.value
  let post := postOfMove (← cx.operand 0) (← cx.operand 1) source.post
  return around source.pre target post

/-- MOVT: the condition as a number. -/
def moveCondition (cx : Context) : Build Effect := cx.write 0 Flag.t.word

/-- SWAP: exchanges the two low bytes, or the two halves. -/
def swap (cx : Context) : Build Effect := do
  let src := temp "src"
  let swapped ← match cx.insn.size with
    | .byte =>
      pure (((src.bitAnd (word 0xffff0000)).bitOr ((src.bitAnd (word 0xff)).shl (word 8))).bitOr
        ((src.shr (word 8)).bitAnd (word 0xff)))
    | .word => pure ((src.shl (word 16)).bitOr (src.shr (word 16)))
    | other => throw (.invalidSize other)
  let value ← cx.value 0 .long
  let target ← cx.write 1 swapped .long
  return .sequence [setTemp "src" value, target]

/-- XTRCT: the middle word of the source and the target. -/
def extract (cx : Context) : Build Effect := do
  let m ← cx.value 0
  let n ← cx.value 1
  cx.write 1 ((m.shl (word 16)).bitOr (n.shr (word 16)))

end SuperH.Lift
