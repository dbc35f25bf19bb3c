import SuperH.Lift.Context

/-!
# Comparisons

Each comparison sets flag T and nothing else.
-/

namespace SuperH.Lift

open SuperH.Expr SuperH.Effect SuperH.Cpu

/-- CMP/EQ. -/
def compareEq (cx : Context) : Build Effect := do
  let m ← cx.value 0
  let n ← cx.value 1
  return Flag.t.assign (m.eq n)

/-- CMP/HS, CMP/GE, CMP/HI and CMP/GT: the target compared with the source. -/
def compare (cx : Context) (rule : Expr → Expr → Expr) : Build Effect := do
  let n ← cx.value 1
  let m ← cx.value 0
  return Flag.t.assign (rule n m)

/-- CMP/PZ and CMP/PL: an operand compared with zero. -/
def compareZero (cx : Context) (rule : Expr → Expr → Expr) : Build Effect := do
  let n ← cx.value 0
  return Flag.t.assign (rule n (word 0))

/-- The byte of `diff` at a position is zero. -/
def byteIsZero (position : Nat) : Expr :=
  .isZero (((temp "diff").shr (word position)).bitAnd (word 0xff))

/-- CMP/STR: some byte of the source equals the byte of the target at its place. -/
def compareBytes (cx : Context) : Build Effect := do
  let m ← cx.value 0
  let n ← cx.value 1
  return .sequence [
    setTemp "diff" (m.bitXor n),
    Flag.t.assign (((byteIsZero 0).or (byteIsZero 8)).or ((byteIsZero 16).or (byteIsZero 24)))]

/-- TST: source and target have no bit in common. -/
def test (cx : Context) : Build Effect := do
  let m ← cx.value 0
  let n ← cx.value 1
  return Flag.t.assign (.isZero (m.bitAnd n))

end SuperH.Lift
