import SuperH.Cpu.Status

/-!
# One step of a division

`divideStep` shifts the next bit of the dividend into the remainder and adds or subtracts the
divisor, whichever brings the remainder closer to zero. Flag Q holds the sign of the remainder and M
that of the divisor; T takes the bit in, and the quotient's bit out.
-/

namespace SuperH

open SuperH.Expr SuperH.Effect

/-- Adds or subtracts the divisor. The new Q is the exclusive disjunction of the carry or borrow and
the sign bit that Q holds, or the negation of that. -/
def divideArm (subtract negated : Bool) : Effect :=
  let next := (if subtract then Expr.sub else Expr.add) (temp "rem") (temp "divisor")
  let moved := (if subtract then ugt else ult) (temp "rem") (temp "tmp0")
  let (whenQ, unlessQ) :=
    if negated then (temp "tmp1", (temp "tmp1").not) else ((temp "tmp1").not, temp "tmp1")
  .sequence [
    setTemp "tmp0" (temp "rem"),
    setTemp "rem" next,
    setTemp "tmp1" moved,
    .branch Flag.q.expr (Flag.q.assign whenQ) (Flag.q.assign unlessQ)]

/-- One step for a remainder and a divisor, each computed once. The new remainder is left in the
variable `rem`. -/
def divideStep (remainder divisor : Expr) : Effect :=
  .sequence [
    setTemp "old_q" Flag.q.expr,
    setTemp "divisor" divisor,
    setTemp "rem" remainder,
    Flag.q.assign (temp "rem").msb,
    setTemp "rem" (((temp "rem").shl (const 32 1)).bitOr Flag.t.word),
    .branch (temp "old_q")
      (.branch Flag.m.expr (divideArm true true) (divideArm false false))
      (.branch Flag.m.expr (divideArm false true) (divideArm true false)),
    Flag.t.assign (Flag.q.expr.eq Flag.m.expr)]

end SuperH
