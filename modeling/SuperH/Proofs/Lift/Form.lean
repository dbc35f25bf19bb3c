import SuperH.Lift.Basic
import SuperH.Proofs.Cpu.Storage

/-!
# Instructions by access size

SWAP, EXTS, EXTU and MAC have one form for each size that they accept. `swappedHalves`, `narrowBits` and `macForm` name
the form, and `swap_eq`, `extend_eq` and `multiplyAndAdd_eq` state the instructions through it.
-/

namespace SuperH.Lift

open SuperH.Expr SuperH.Effect SuperH.Cpu

/-- The source of SWAP with its two low bytes or its two halves exchanged. -/
def swappedHalves : AccessSize → Build Expr
  | .byte => .ok (((((temp "src").bitAnd (word 0xffff0000)).bitOr (((temp "src").bitAnd (word 0xff)).shl (word 8)))).bitOr
      (((temp "src").shr (word 8)).bitAnd (word 0xff)))
  | .word => .ok (((temp "src").shl (word 16)).bitOr ((temp "src").shr (word 16)))
  | other => .error (.invalidSize other)

theorem swap_eq (cx : Context) : swap cx = (do
    let swapped ← swappedHalves cx.insn.size
    let value ← cx.value 0 .long
    let target ← cx.write 1 swapped .long
    return .sequence [setTemp "src" value, target]) := by
  unfold swap
  cases cx.insn.size <;> rfl

/-- The bits that EXTS and EXTU extend. -/
def narrowBits : AccessSize → Build Nat
  | .byte => .ok 8
  | .word => .ok 16
  | other => .error (.invalidSize other)

theorem extend_eq (cx : Context) (isSigned : Bool) : extend cx isSigned = (do
    let bits ← narrowBits cx.insn.size
    let v ← cx.value 0 .long
    cx.write 1 (.cast isSigned 32 (v.unsigned bits)) .long) := by
  unfold extend
  cases cx.insn.size <;> rfl

/-- The form of MAC. -/
def macForm : AccessSize → Build MacForm
  | .long => .ok .long
  | .word => .ok .word
  | other => .error (.invalidSize other)

theorem multiplyAndAdd_eq (cx : Context) : multiplyAndAdd cx = (do
    let form ← macForm cx.insn.size
    let n ← cx.read 1
    let m ← cx.read 0
    return .sequence <|
      [setTemp "mac_n" n.value] ++ n.post.toList ++ [setTemp "mac_m" m.value] ++ m.post.toList
        ++ [multiplyAccumulate form (temp "mac_n") (temp "mac_m")]) := by
  unfold multiplyAndAdd
  cases h : cx.insn.size <;> rfl

end SuperH.Lift
