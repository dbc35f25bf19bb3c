import SuperH.Lift.Context

/-!
# Logic and shifts

The target combined with the source bit by bit, rotations by one place, and shifts by one, by a fixed
and by a computed number of places.
-/

namespace SuperH.Lift

open SuperH.Expr SuperH.Effect SuperH.Cpu

/-! ## Logic -/

/-- AND, OR and XOR. -/
def bitwise (cx : Context) (combine : Expr → Expr → Expr) : Build Effect := do
  let m ← cx.value 0
  let n ← cx.value 1
  cx.write 1 (combine m n)

/-- NOT. -/
def bitNot (cx : Context) : Build Effect := do
  let m ← cx.value 0
  cx.write 1 (.complement m)

/-- TAS.B: T tells whether the byte is zero, and its highest bit is set. -/
def testAndSet (cx : Context) : Build Effect := do
  let byte ← cx.value 0 .byte
  let target ← cx.write 0 ((temp "byte").bitOr (const 8 0x80)) .byte
  return .sequence [setTemp "byte" byte, Flag.t.assign (.isZero (temp "byte")), target]

/-! ## Rotations -/

/-- The operand one place up, with a bit that comes in. -/
def rotatedUp (bitIn : Expr) : Expr := ((temp "v").shl (word 1)).bitOr bitIn

/-- The operand one place down, with a bit that comes in. -/
def rotatedDown (bitIn : Expr) : Expr := ((temp "v").shr (word 1)).bitOr bitIn

/-- ROTL: T takes the highest bit, which comes in at the other end. -/
def rotateLeft (cx : Context) : Build Effect := do
  let v ← cx.value 0
  let target ← cx.write 0 (rotatedUp ((temp "v").shr (word 31)))
  return .sequence [setTemp "v" v, Flag.t.assign (temp "v").msb, target]

/-- ROTR: T takes the lowest bit, which comes in at the other end. -/
def rotateRight (cx : Context) : Build Effect := do
  let v ← cx.value 0
  let target ← cx.write 0 (rotatedDown ((temp "v").shl (word 31)))
  return .sequence [setTemp "v" v, Flag.t.assign (temp "v").lsb, target]

/-- ROTCL: T comes in at the lowest place and takes the highest bit. -/
def rotateLeftThrough (cx : Context) : Build Effect := do
  let v ← cx.value 0
  let target ← cx.write 0 (rotatedUp Flag.t.word)
  return .sequence [setTemp "v" v, target, Flag.t.assign (temp "v").msb]

/-- ROTCR: T comes in at the highest place and takes the lowest bit. -/
def rotateRightThrough (cx : Context) : Build Effect := do
  let v ← cx.value 0
  let target ← cx.write 0 (rotatedDown (Flag.t.word.shl (word 31)))
  return .sequence [setTemp "v" v, target, Flag.t.assign (temp "v").lsb]

/-! ## Shifts -/

/-- SHAL and SHLL: T takes the highest bit. -/
def shiftLeft (cx : Context) : Build Effect := do
  let v ← cx.value 0
  let target ← cx.write 0 (v.shl (word 1))
  return .sequence [Flag.t.assign v.msb, target]

/-- SHLR and SHAR: T takes the lowest bit. -/
def shiftRight (cx : Context) (arithmetic : Bool) : Build Effect := do
  let v ← cx.value 0
  let target ← cx.write 0 (if arithmetic then v.sar (word 1) else v.shr (word 1))
  return .sequence [Flag.t.assign v.lsb, target]

/-- SHLLn and SHLRn: a fixed number of places; T stays. -/
def shiftBy (cx : Context) (left : Bool) (places : Nat) : Build Effect := do
  let v ← cx.value 0
  cx.write 0 (if left then v.shl (word places) else v.shr (word places))

/-- SHAD and SHLD: a source that is not negative shifts left by its low five bits, and a negative one
shifts right by 32 less those. -/
def shiftDynamic (cx : Context) (arithmetic : Bool) : Build Effect := do
  let low := (temp "amount").bitAnd (word 0x1f)
  let right := (word 32).sub low
  let amount ← cx.value 0
  let v ← cx.value 1
  let shiftedLeft ← cx.write 1 ((temp "v").shl low)
  let shiftedRight ← cx.write 1
    (if arithmetic then (temp "v").sar right else (temp "v").shr right)
  return .sequence [
    setTemp "amount" amount,
    setTemp "v" v,
    .branch ((temp "amount").sge (word 0)) shiftedLeft shiftedRight]

end SuperH.Lift
