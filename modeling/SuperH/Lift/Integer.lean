import SuperH.Cpu.Carry
import SuperH.Lift.Context

/-!
# Integer arithmetic

Sums and differences, with carry, borrow or overflow in flag T, and the extensions of bytes and
words.
-/

namespace SuperH.Lift

open SuperH.Expr SuperH.Effect SuperH.Cpu

def add (cx : Context) : Build Effect := do
  let m ← cx.value 0
  let n ← cx.value 1
  cx.write 1 (m.add n)

def sub (cx : Context) : Build Effect := do
  let n ← cx.value 1
  let m ← cx.value 0
  cx.write 1 (n.sub m)

/-- Combines target and source in a result, writes it, and sets T by a rule on the result and both
operands. -/
def withFlag (cx : Context) (result : Expr) (rule : Expr → Expr → Expr → Expr) :
    Build Effect := do
  let x ← cx.value 1
  let y ← cx.value 0
  let target ← cx.write 1 (temp "res")
  return .sequence [
    setTemp "x" x,
    setTemp "y" y,
    setTemp "res" result,
    target,
    Flag.t.assign (rule (temp "res") (temp "x") (temp "y"))]

/-- ADDC: the sum and T; T becomes the carry. -/
def addWithCarry (cx : Context) : Build Effect :=
  withFlag cx (((temp "x").add (temp "y")).add Flag.t.word) .addCarry

/-- ADDV: the sum; T becomes the signed overflow. -/
def addWithOverflow (cx : Context) : Build Effect :=
  withFlag cx ((temp "x").add (temp "y")) .addOverflow

/-- SUBC: the difference less T; T becomes the borrow. -/
def subWithBorrow (cx : Context) : Build Effect :=
  withFlag cx (((temp "x").sub (temp "y")).sub Flag.t.word) .subBorrow

/-- SUBV: the difference; T becomes the signed underflow. -/
def subWithUnderflow (cx : Context) : Build Effect :=
  withFlag cx ((temp "x").sub (temp "y")) .subUnderflow

/-- NEG. -/
def negate (cx : Context) : Build Effect := do
  let m ← cx.value 0
  cx.write 1 (.neg m)

/-- NEGC: zero less the source less T; T becomes the borrow. -/
def negateWithBorrow (cx : Context) : Build Effect := do
  let y ← cx.value 0
  let target ← cx.write 1 (temp "res")
  return .sequence [
    setTemp "y" y,
    setTemp "res" (((word 0).sub (temp "y")).sub Flag.t.word),
    target,
    Flag.t.assign (.subBorrow (temp "res") (word 0) (temp "y"))]

/-- DT: one less; T tells whether that is zero. -/
def decrementAndTest (cx : Context) : Build Effect := do
  let n ← cx.value 0
  let target ← cx.write 0 (n.sub (word 1))
  return .sequence [target, Flag.t.assign (.isZero (← cx.value 0))]

/-- EXTS and EXTU: the low byte or word of the source, extended. -/
def extend (cx : Context) (isSigned : Bool) : Build Effect := do
  let bits ← match cx.insn.size with
    | .byte => pure 8
    | .word => pure 16
    | other => throw (.invalidSize other)
  let low := (← cx.value 0 .long).unsigned bits
  cx.write 1 (.cast isSigned 32 low) .long

end SuperH.Lift
