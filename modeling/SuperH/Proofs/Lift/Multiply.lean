import SuperH.Proofs.Cpu.MultiplyAccumulate
import SuperH.Proofs.Lift.OnRegisters

/-!
# Products of general registers

* `toNat_setWidth_mul`, `toInt_signExtend_mul` : in twice the width no product is cut;
* `Transforms.multiplyDouble`, `Transforms.multiplyWord` : the products of 64 bits, and those of the low halves, with either
  extension; `Transforms.mul` is for MUL.L.
-/

namespace SuperH

open SuperH.Expr SuperH.Effect SuperH.Cpu

/-! ## Products in twice the width -/

section

variable {w v : Nat} (a b : BitVec w)

theorem toNat_setWidth_mul (h : 2 * w ≤ v) : (a.setWidth v * b.setWidth v).toNat = a.toNat * b.toNat := by
  have hle : w ≤ v := by omega
  have hlt : a.toNat * b.toNat < 2 ^ v := by
    calc a.toNat * b.toNat < 2 ^ w * 2 ^ w := Nat.mul_lt_mul'' a.isLt b.isLt
      _ = 2 ^ (2 * w) := by rw [← Nat.pow_add, Nat.two_mul]
      _ ≤ 2 ^ v := Nat.pow_le_pow_right (by decide) h
  rw [BitVec.toNat_mul, BitVec.toNat_setWidth_of_le hle, BitVec.toNat_setWidth_of_le hle, Nat.mod_eq_of_lt hlt]

theorem toInt_signExtend_mul (hw : 0 < w) (h : 2 * w ≤ v) : (a.signExtend v * b.signExtend v).toInt = a.toInt * b.toInt := by
  -- the largest product is that of the least factors
  have hpow : (2 : Int) ^ (w * 2 - 2) < 2 ^ (v - 1) := Int.pow_lt_pow_of_lt (by decide) (by omega)
  have hle := BitVec.le_toInt_mul_toInt (x := a) (y := b)
  have hge := BitVec.toInt_mul_toInt_le (x := a) (y := b)
  rw [signExtend_mul_signExtend, BitVec.toInt_ofInt_eq_self (by omega) (by omega) (by omega)]

end

/-! ## Instructions -/

namespace Cpu.Transforms

variable (m n : Fin 16)

/-- The product of the registers, extended to 64 bits, in MACH:MACL. -/
theorem multiplyDouble (mnemonic : Mnemonic) (isSigned : Bool) (extend : BitVec 32 → BitVec 64)
    (hneeds : ∀ pc, Lift.needsPrivilege ⟨.onRegs mnemonic [m, n], pc⟩ = false)
    (heffect : ∀ pc, Lift.effect ⟨.onRegs mnemonic [m, n], pc⟩ = Lift.multiplyDouble ⟨.onRegs mnemonic [m, n], pc⟩ isSigned)
    (hextend : ∀ {x : Frame} {e : Expr} {a : BitVec 32}, Evals x e (.word a) →
      Evals x (.cast isSigned 64 e) (.bits (.ofBitVec (extend a) double_pos))) :
    Transforms [.onRegs mnemonic [m, n]] fun st => st.setAcc (extend (st.reg m) * extend (st.reg n)) := by
  refine of_runs (e := .sequence [
    setTemp "prod" (mul (.cast isSigned 64 (generalStorage m).read) (.cast isSigned 64 (generalStorage n).read)),
    setGlobal "macl" ((temp "prod").unsigned 32), setGlobal "mach" (((temp "prod").shr (const 64 32)).unsigned 32)])
    (fun pc privileged => lift_eq pc privileged (hneeds pc) ?_) fun st => ?_
  · rw [heffect pc]
    unfold Lift.multiplyDouble
    rw [Context.value_eq (n := m) rfl rfl, Context.value_eq (n := n) rfl rfl]
    rfl
  · let product := extend (st.reg m) * extend (st.reg n)
    let x : Frame := Frame.setTemp ⟨st, []⟩ "prod" (.bits (.ofBitVec product double_pos))
    let x₁ := x.setWord maclVar (product.setWidth 32)
    have hlow : Runs x (setGlobal maclVar ((temp "prod").unsigned 32)) x₁ := .setWord ((Evals.temp rfl).unsigned word_pos)
    have hprod : Evals x₁ (temp "prod") (.bits (.ofBitVec product double_pos)) := .temp rfl
    have hhigh : Runs x₁ (setGlobal machVar (((temp "prod").shr (const 64 32)).unsigned 32)) _ :=
      .setWord ((hprod.shr (.const 32 double_pos)).unsigned word_pos)
    exact ⟨_, .sequence (.cons (.setTemp ((hextend (.reg m)).mul (hextend (.reg n)))) (.cons hlow (.cons hhigh .nil))), rfl⟩

theorem dmuls : Transforms [.onRegs .dmuls [m, n]] fun st => st.setAcc ((st.reg m).signExtend 64 * (st.reg n).signExtend 64) :=
  multiplyDouble m n .dmuls true _ (fun _ => rfl) (fun _ => rfl) (.signed double_pos)

theorem dmulu : Transforms [.onRegs .dmulu [m, n]] fun st => st.setAcc ((st.reg m).setWidth 64 * (st.reg n).setWidth 64) :=
  multiplyDouble m n .dmulu false _ (fun _ => rfl) (fun _ => rfl) (.unsigned double_pos)

theorem mul : Transforms [.onRegs .mul [m, n]] fun st => st.setWord maclVar (st.reg m * st.reg n) := by
  refine of_runs (e := setGlobal maclVar ((generalStorage m).read.mul (generalStorage n).read))
    (fun pc privileged => lift_eq pc privileged rfl ?_) fun st => ⟨_, .setWord ((Evals.reg m).mul (.reg n)), rfl⟩
  show Lift.multiplyLong _ = _
  unfold Lift.multiplyLong
  rw [Context.value_eq (n := m) rfl rfl, Context.value_eq (n := n) rfl rfl]
  rfl

/-- The product of the low halves, extended to 32 bits, in MACL. -/
theorem multiplyWord (mnemonic : Mnemonic) (isSigned : Bool) (extend : BitVec 16 → BitVec 32)
    (hneeds : ∀ pc, Lift.needsPrivilege ⟨.onRegs mnemonic [m, n], pc⟩ = false)
    (heffect : ∀ pc, Lift.effect ⟨.onRegs mnemonic [m, n], pc⟩ = Lift.multiplyWord ⟨.onRegs mnemonic [m, n], pc⟩ isSigned)
    (hextend : ∀ {x : Frame} {e : Expr} {a : BitVec 16}, Evals x e (.bits (.ofBitVec a (by decide))) →
      Evals x (.cast isSigned 32 e) (.word (extend a))) :
    Transforms [.onRegs mnemonic [m, n]] fun st =>
      st.setWord maclVar (extend ((st.reg m).setWidth 16) * extend ((st.reg n).setWidth 16)) := by
  let low (e : Expr) : Expr := .cast isSigned 32 (e.unsigned 16)
  refine of_runs (e := setGlobal maclVar ((low (generalStorage m).read).mul (low (generalStorage n).read)))
    (fun pc privileged => lift_eq pc privileged (hneeds pc) ?_) fun st => ?_
  · rw [heffect pc]
    unfold Lift.multiplyWord
    rw [Context.value_long (n := m) rfl, Context.value_long (n := n) rfl]
    rfl
  · have hlow (n : Fin 16) : Evals ⟨st, []⟩ (low (generalStorage n).read) (.word (extend ((st.reg n).setWidth 16))) :=
      hextend ((Evals.reg n).unsigned (by decide))
    exact ⟨_, .setWord ((hlow m).mul (hlow n)), rfl⟩

theorem muls : Transforms [.onRegs .muls [m, n]] fun st =>
    st.setWord maclVar (((st.reg m).setWidth 16).signExtend 32 * ((st.reg n).setWidth 16).signExtend 32) :=
  multiplyWord m n .muls true _ (fun _ => rfl) (fun _ => rfl) (.signed word_pos)

theorem mulu : Transforms [.onRegs .mulu [m, n]] fun st =>
    st.setWord maclVar (((st.reg m).setWidth 16).setWidth 32 * ((st.reg n).setWidth 16).setWidth 32) :=
  multiplyWord m n .mulu false _ (fun _ => rfl) (fun _ => rfl) (.unsigned word_pos)

end Cpu.Transforms
end SuperH
