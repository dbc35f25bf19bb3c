import SuperH.Cpu.Divide
import SuperH.Cpu.MultiplyAccumulate
import SuperH.Lift.Context

/-!
# Multiplication and division

Products go to MACH:MACL or to MACL alone; a division is a run of single steps.
-/

namespace SuperH.Lift

open SuperH.Expr SuperH.Effect SuperH.Cpu

/-- DMULS.L and DMULU.L: the product of 64 bits. -/
def multiplyDouble (cx : Context) (isSigned : Bool) : Build Effect := do
  let m ← cx.value 0
  let n ← cx.value 1
  return .sequence [
    setTemp "prod" (mul (.cast isSigned 64 m) (.cast isSigned 64 n)),
    setGlobal "macl" ((temp "prod").unsigned 32),
    setGlobal "mach" (((temp "prod").shr (const 64 32)).unsigned 32)]

/-- MUL.L: the product of 32 bits. -/
def multiplyLong (cx : Context) : Build Effect := do
  let m ← cx.value 0
  let n ← cx.value 1
  return setGlobal "macl" (m.mul n)

/-- MULS.W and MULU.W: the product of the low halves. -/
def multiplyWord (cx : Context) (isSigned : Bool) : Build Effect := do
  let low := fun (x : Expr) => Expr.cast isSigned 32 (x.unsigned 16)
  let m ← cx.value 0 .long
  let n ← cx.value 1 .long
  return setGlobal "macl" ((low m).mul (low n))

/-- MAC.L and MAC.W: the second operand is loaded and its register stepped before the first is
loaded, so one register used twice reads two elements in turn. -/
def multiplyAndAdd (cx : Context) : Build Effect := do
  let form ← match cx.insn.size with
    | .long => pure MacForm.long
    | .word => pure MacForm.word
    | other => throw (.invalidSize other)
  let n ← cx.read 1
  let m ← cx.read 0
  return .sequence <|
    [setTemp "mac_n" n.value] ++ n.post.toList ++ [setTemp "mac_m" m.value] ++ m.post.toList
      ++ [multiplyAccumulate form (temp "mac_n") (temp "mac_m")]

/-- CLRMAC. -/
def clearMac : Effect := .sequence [setGlobal "mach" (word 0), setGlobal "macl" (word 0)]

/-- DIV1: one step on the second operand as remainder and the first as divisor. -/
def divide (cx : Context) : Build Effect := do
  let remainder ← cx.value 1
  let divisor ← cx.value 0
  let target ← cx.write 1 (temp "rem")
  return .sequence [divideStep remainder divisor, target]

/-- DIV0S: M and Q take the signs of divisor and dividend, and T whether they differ. -/
def divideSigned (cx : Context) : Build Effect := do
  let m := (← cx.value 0).msb
  let q := (← cx.value 1).msb
  return .sequence [Flag.m.assign m, Flag.q.assign q, Flag.t.assign (m.xor q)]

/-- DIV0U. -/
def divideUnsigned : Effect :=
  .sequence [Flag.m.assign (.bool false), Flag.q.assign (.bool false), Flag.t.assign (.bool false)]

end SuperH.Lift
