import SuperH.Cpu.MultiplyAccumulate
import SuperH.Proofs.Cpu.Execution

/-!
# Multiply and accumulate, on states

* `State.acc`, `State.setAcc` : MACH:MACL as one number;
* `MacForm.cut` : a sum as MACH:MACL takes it, whole or cut to the form's width and extended with its sign;
* `runs_multiplyAccumulate` : what the effect does to a state;
* `MacForm.cut_add_cut` : what is lost by cutting the sum so far, cutting the new one loses anyway.
-/

namespace SuperH

/-! ## Halves and sign extensions -/

theorem shl_or_eq_append (hi lo : BitVec 32) : hi.setWidth 64 <<< 32 ||| lo.setWidth 64 = hi ++ lo := by
  rw [BitVec.append_def, BitVec.shiftLeftZeroExtend_eq, BitVec.setWidth'_eq]

theorem append_halves (v : BitVec 64) : (v >>> 32).setWidth 32 ++ v.setWidth 32 = v := by
  ext i hi
  simp only [BitVec.getElem_append, BitVec.getElem_setWidth, BitVec.getLsbD_ushiftRight]
  rw [← BitVec.getLsbD_eq_getElem]
  split
  · rfl
  · rw [Nat.add_sub_cancel' (by omega)]

/-- Nothing is lost by an extension. -/
theorem setWidth_signExtend {w v : Nat} (h : w ≤ v) (x : BitVec w) : (x.signExtend v).setWidth w = x := by
  ext i hi
  rw [BitVec.getElem_setWidth, BitVec.getLsbD_signExtend, if_pos hi, decide_eq_true (Nat.lt_of_lt_of_le hi h),
    Bool.true_and, BitVec.getLsbD_eq_getElem]

namespace Cpu

open SuperH.Expr SuperH.Effect

/-! ## The accumulator -/

/-- The high half of the accumulator. -/
def machVar : WordVar := ⟨"mach", by decide⟩

/-- The low half. -/
def maclVar : WordVar := ⟨"macl", by decide⟩

theorem generalVar_ne_accumulator : ∀ bank1 n, State.generalVar bank1 n ≠ machVar ∧ State.generalVar bank1 n ≠ maclVar := by
  decide

namespace State

variable (st : State)

/-- MACH:MACL. -/
def acc : BitVec 64 := st.word machVar ++ st.word maclVar

def setAcc (v : BitVec 64) : State :=
  (st.setWord maclVar (v.setWidth 32)).setWord machVar ((v >>> 32).setWidth 32)

@[simp] theorem acc_setAcc (v : BitVec 64) : (st.setAcc v).acc = v := by
  have hne : maclVar ≠ machVar := by decide
  unfold acc setAcc setWord
  dsimp only
  rw [Function.update_self, Function.update_of_ne hne, Function.update_self, append_halves]

@[simp] theorem acc_setReg (n : Fin 16) (v : BitVec 32) : (st.setReg n v).acc = st.acc := by
  obtain ⟨hmach, hmacl⟩ := generalVar_ne_accumulator st.bank1 n
  unfold acc setReg setWord
  dsimp only
  rw [Function.update_of_ne hmach.symm, Function.update_of_ne hmacl.symm]

@[simp] theorem reg_setAcc (v : BitVec 64) (n : Fin 16) : (st.setAcc v).reg n = st.reg n := by
  obtain ⟨hmach, hmacl⟩ := generalVar_ne_accumulator st.bank1 n
  show (st.setAcc v).word (generalVar st.bank1 n) = _
  unfold setAcc setWord
  dsimp only
  rw [Function.update_of_ne hmach, Function.update_of_ne hmacl]
  rfl

end State

end Cpu

/-! ## Sums -/

/-- A sum as the accumulator takes it: whole, or cut to the form's width and extended with its sign. -/
def MacForm.cut (form : MacForm) (saturate : Bool) (sum : BitVec 64) : BitVec 64 :=
  if saturate then (sum.setWidth form.saturationBits).signExtend 64 else sum

/-- What is lost by cutting the sum so far, cutting the new one loses anyway. -/
theorem MacForm.cut_add_cut (form : MacForm) {saturate before : Bool} (h : before = true → saturate = true)
    (v sum : BitVec 64) : form.cut saturate (v + form.cut before sum) = form.cut saturate (v + sum) := by
  have hle : form.saturationBits ≤ 64 := by cases form <;> decide
  cases before with
  | false => rfl
  | true =>
    rw [h rfl]
    simp only [cut, if_true]
    rw [BitVec.setWidth_add _ _ hle, setWidth_signExtend hle, ← BitVec.setWidth_add _ _ hle]

/-- The product of two numbers that are extended with their signs. -/
theorem signExtend_mul_signExtend {w v : Nat} (a b : BitVec w) :
    a.signExtend v * b.signExtend v = BitVec.ofInt v (a.toInt * b.toInt) := (BitVec.ofInt_mul ..).symm

namespace Cpu

open SuperH.Expr SuperH.Effect

/-! ## The effect -/

/-- The product of the factors is added to the accumulator. -/
theorem runs_multiplyAccumulate {x : Frame} {w : Nat} {hw : 0 < w} {a b : BitVec w} (form : MacForm) {n m : Expr}
    (hn : ∀ v, Evals (x.setTemp "mac" v) n (.bits (.ofBitVec a hw)))
    (hm : ∀ v, Evals (x.setTemp "mac" v) m (.bits (.ofBitVec b hw))) :
    ∃ y, Runs x (multiplyAccumulate form n m) y ∧
      y.toState = x.setAcc (form.cut (x.flag .s) (BitVec.ofInt 64 (a.toInt * b.toInt) + x.acc)) := by
  let x₁ := x.setTemp "mac" (.bits (.ofBitVec x.acc double_pos))
  let sum := BitVec.ofInt 64 (a.toInt * b.toInt) + x.acc
  let x₂ := x₁.setTemp "mac" (.bits (.ofBitVec sum double_pos))
  have hacc : Evals x ((((global "mach").unsigned 64).shl (const 64 32)).bitOr ((global "macl").unsigned 64))
      (.bits (.ofBitVec x.acc double_pos)) := by
    rw [State.acc, ← shl_or_eq_append]
    have hhigh := (Evals.global (x := x) machVar).unsigned double_pos
    have hlow := (Evals.global (x := x) maclVar).unsigned double_pos
    exact (hhigh.shl (.const 32 double_pos)).bitOr hlow
  have hsum : Evals x₁ (((n.signed 64).mul (m.signed 64)).add (temp "mac")) (.bits (.ofBitVec sum double_pos)) := by
    have hproduct : Evals x₁ ((n.signed 64).mul (m.signed 64)) _ := ((hn _).signed double_pos).mul ((hm _).signed double_pos)
    rw [signExtend_mul_signExtend] at hproduct
    exact hproduct.add (.temp rfl)
  obtain ⟨x₃, hcut, hmac, hstate⟩ : ∃ x₃, Runs x₂ (.branch Flag.s.expr
      (setTemp "mac" (((temp "mac").unsigned form.saturationBits).signed 64)) .nop) x₃ ∧
      x₃.temps.lookup "mac" = some (.bits (.ofBitVec (form.cut (x.flag .s) sum) double_pos)) ∧ x₃.toState = x.toState := by
    have hbits : 0 < form.saturationBits := by cases form <;> decide
    have hs : Evals x₂ Flag.s.expr (.bool (x.flag .s)) := .flag .s
    cases h : x.flag .s with
    | true =>
      rw [h] at hs
      exact ⟨_, .branch hs (fun _ => .setTemp (((Evals.temp rfl).unsigned hbits).signed double_pos)) nofun, rfl, rfl⟩
    | false =>
      rw [h] at hs
      exact ⟨_, .branch hs nofun fun _ => .nop, rfl, rfl⟩
  let x₄ := x₃.setWord maclVar ((form.cut (x.flag .s) sum).setWidth 32)
  have hlow : Runs x₃ (setGlobal maclVar ((temp "mac").unsigned 32)) x₄ := .setWord ((Evals.temp hmac).unsigned word_pos)
  have hmac' : Evals x₄ (temp "mac") (.bits (.ofBitVec (form.cut (x.flag .s) sum) double_pos)) := .temp hmac
  have hhigh : Runs x₄ (setGlobal machVar (((temp "mac").shr (const 64 32)).unsigned 32)) _ :=
    .setWord ((hmac'.shr (.const 32 double_pos)).unsigned word_pos)
  refine ⟨_, .sequence (.cons (.setTemp hacc) (.cons (.setTemp hsum) (.cons hcut (.cons hlow (.cons hhigh .nil))))), ?_⟩
  show (x₃.toState.setWord maclVar _).setWord machVar _ = _
  rw [hstate]
  rfl

end Cpu
end SuperH
