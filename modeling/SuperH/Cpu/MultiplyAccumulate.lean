import SuperH.Cpu.Status

/-!
# Multiply and accumulate

`multiplyAccumulate` adds a signed product to the 64-bit pair MACH:MACL. With flag S set, the sum is
cut to the form's saturation width and extended with its sign.
-/

namespace SuperH

open SuperH.Expr SuperH.Effect

/-- Factors of 32 or of 16 bits. -/
inductive MacForm where
  | long | word
  deriving DecidableEq, Repr

/-- The width of the sum when flag S is set. -/
def MacForm.saturationBits : MacForm → Nat
  | .long => 48
  | .word => 32

/-- Adds the product of two factors to MACH:MACL. -/
def multiplyAccumulate (form : MacForm) (n m : Expr) : Effect :=
  .sequence [
    setTemp "mac"
      ((((global "mach").unsigned 64).shl (const 64 32)).bitOr ((global "macl").unsigned 64)),
    setTemp "mac" (((n.signed 64).mul (m.signed 64)).add (temp "mac")),
    .branch Flag.s.expr
      (setTemp "mac" (((temp "mac").unsigned form.saturationBits).signed 64))
      .nop,
    setGlobal "macl" ((temp "mac").unsigned 32),
    setGlobal "mach" (((temp "mac").shr (const 64 32)).unsigned 32)]

end SuperH
