import SuperH.Proofs.Lift.OnRegisters

/-!
# Sums and differences that set T

What ADDV, SUBV, NEGC and DT do to the state, beside ADDC and SUBC: one function on states for each, and a proof that the
instruction transforms states so.
-/

namespace SuperH

open SuperH.Expr SuperH.Effect SuperH.Cpu

namespace Cpu.State

variable (st : State) (m n : Fin 16)

/-- ADDV: the sum, and in T whether the signed sum overflows. -/
def addWithOverflow : State :=
  (st.setReg n (st.reg n + st.reg m)).setFlag .t (decide (¬ FitsSigned 32 ((st.reg n).toInt + (st.reg m).toInt)))

/-- SUBV: the difference, and in T whether the signed difference overflows. -/
def subWithUnderflow : State :=
  (st.setReg n (st.reg n - st.reg m)).setFlag .t (decide (¬ FitsSigned 32 ((st.reg n).toInt - (st.reg m).toInt)))

/-- NEGC: zero less the source less T, and the borrow in T. -/
def negateWithBorrow : State :=
  (st.setReg n (0 - st.reg m - st.flagWord .t)).setFlag .t (decide (0 < (st.reg m).toNat + (st.flag .t).toNat))

/-- DT: one less, and in T whether that is zero. -/
def decrementAndTest : State := (st.setReg n (st.reg n - 1)).setFlag .t (st.reg n - 1 == 0)

end Cpu.State

namespace Cpu.Transforms

variable (m n : Fin 16)

theorem addv : Transforms [.onRegs .addv [m, n]] (·.addWithOverflow m n) := by
  refine withFlag m n .addv ((temp "x").add (temp "y")) .addOverflow _ _ (fun _ => rfl) (fun _ => rfl)
    (fun st => ?_) fun st => ?_
  · exact (Evals.temp rfl).add (.temp rfl)
  · have hoverflow := addOverflow_eq word_pos (st.reg n) (st.reg m) 0#32 (by decide)
    rw [BitVec.add_zero, BitVec.toNat_zero, Int.natCast_zero, Int.add_zero] at hoverflow
    rw [← hoverflow]
    exact .addOverflow (.temp rfl) (.temp rfl) (.temp rfl)

theorem subv : Transforms [.onRegs .subv [m, n]] (·.subWithUnderflow m n) := by
  refine withFlag m n .subv ((temp "x").sub (temp "y")) .subUnderflow _ _ (fun _ => rfl) (fun _ => rfl)
    (fun st => ?_) fun st => ?_
  · exact (Evals.temp rfl).sub (.temp rfl)
  · have hunderflow := subUnderflow_eq word_pos (st.reg n) (st.reg m) 0#32 (by decide)
    rw [BitVec.sub_zero, BitVec.toNat_zero, Int.natCast_zero, Int.sub_zero] at hunderflow
    rw [← hunderflow]
    exact .subUnderflow (.temp rfl) (.temp rfl) (.temp rfl)

theorem negc : Transforms [.onRegs .negc [m, n]] (·.negateWithBorrow m n) := by
  refine of_runs (e := .sequence [setTemp "y" (generalStorage m).read,
    setTemp "res" (((word 0).sub (temp "y")).sub Flag.t.word), (generalStorage n).write (temp "res"),
    Flag.t.assign (.subBorrow (temp "res") (word 0) (temp "y"))])
    (fun pc privileged => lift_eq pc privileged rfl ?_) fun st => ?_
  · show Lift.negateWithBorrow _ = _
    unfold Lift.negateWithBorrow
    rw [Context.value_eq (n := m) rfl rfl, Context.write_eq (n := n) rfl rfl]
    rfl
  · let x : Frame := ⟨st, [("y", .word (st.reg m))]⟩
    let r := 0 - st.reg m - st.flagWord .t
    let x₁ := (x.setTemp "res" (.word r)).setReg n r
    have hres : Evals x (((word 0).sub (temp "y")).sub Flag.t.word) (.word r) :=
      ((Evals.const 0 word_pos).sub (.temp rfl)).sub (.flagWord .t)
    have hborrow : Evals x₁ (.subBorrow (temp "res") (word 0) (temp "y"))
        (.bool (decide (0 < (st.reg m).toNat + (st.flag .t).toNat))) := by
      have hrule := subBorrow_eq word_pos 0#32 (st.reg m) (st.flagWord .t) (flagWord_le st .t)
      rw [State.toNat_flagWord, BitVec.toNat_zero] at hrule
      rw [← hrule]
      exact .subBorrow (.temp rfl) (.const 0 word_pos) (.temp rfl)
    exact ⟨_, .sequence (.cons (.setTemp (.reg m)) (.cons (.setTemp hres) (.cons (.setReg (.temp rfl))
      (.cons (.assign hborrow) .nil)))), rfl⟩

theorem dt : Transforms [.onRegs .dt [n]] (·.decrementAndTest n) := by
  refine of_runs (e := .sequence [(generalStorage n).write ((generalStorage n).read.sub (word 1)),
    Flag.t.assign (.isZero (generalStorage n).read)]) (fun pc privileged => lift_eq pc privileged rfl ?_) fun st => ?_
  · show Lift.decrementAndTest _ = _
    unfold Lift.decrementAndTest
    rw [Context.value_eq (n := n) rfl rfl]
    show (do let target ← (Context.mk (.onRegs .dt [n]) pc).write 0 _; _ : Build Effect) = _
    rw [Context.write_eq (n := n) rfl rfl]
    rfl
  · let x : Frame := ⟨st.setReg n (st.reg n - 1), []⟩
    -- the register is read again after it has been written
    have hreg : x.reg n = st.reg n - 1 := by
      show (st.setReg n _).reg n = _
      rw [State.reg_setReg, if_pos rfl]
    have hzero : Evals x (.isZero (generalStorage n).read) (.bool (st.reg n - 1 == 0)) := hreg ▸ (Evals.reg n).isZero
    exact ⟨_, .sequence (.cons (.setReg ((Evals.reg n).sub (.const 1 word_pos))) (.cons (.assign hzero) .nil)), rfl⟩

end Cpu.Transforms
end SuperH
