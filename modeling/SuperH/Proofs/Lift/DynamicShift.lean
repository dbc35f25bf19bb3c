import SuperH.Proofs.Lift.OnRegisters

/-!
# Shifts of general registers by an amount in a register

What SHAD and SHLD do to the state: `dynamicShift` is the word that they shift to, and `Transforms.shiftDynamic` is for both of
them.
-/

namespace SuperH

open SuperH.Expr SuperH.Effect SuperH.Cpu

/-! ## Words and amounts -/

/-- A word shifted to the left by the low five bits of an amount that is not negative, and otherwise to the right by 32 less
those. -/
def dynamicShift (right : BitVec 32 → Nat → BitVec 32) (v amount : BitVec 32) : BitVec 32 :=
  if 0 ≤ amount.toInt then v <<< (amount.toNat % 32) else right v (32 - amount.toNat % 32)

section

variable {right : BitVec 32 → Nat → BitVec 32} (v : BitVec 32) {amount : BitVec 32}

theorem toNat_dynamicShift_of_nonneg (h : 0 ≤ amount.toInt) :
    (dynamicShift right v amount).toNat = v.toNat * 2 ^ (amount.toNat % 32) % 2 ^ 32 := by
  rw [dynamicShift, if_pos h, BitVec.toNat_shiftLeft, Nat.shiftLeft_eq]

theorem dynamicShift_of_neg (h : amount.toInt < 0) : dynamicShift right v amount = right v (32 - amount.toNat % 32) :=
  if_neg (Int.not_le.2 h)

end

theorem toNat_and_five_bits (amount : BitVec 32) : (amount &&& 0x1f).toNat = amount.toNat % 32 := by
  rw [BitVec.toNat_and]
  exact Nat.and_two_pow_sub_one_eq_mod _ 5

theorem toNat_sub_five_bits (amount : BitVec 32) : (32 - (amount &&& 0x1f)).toNat = 32 - amount.toNat % 32 := by
  have hlow := toNat_and_five_bits amount
  have hlt : amount.toNat % 32 < 32 := Nat.mod_lt _ (by decide)
  bv_omega

/-! ## Instructions -/

namespace Cpu.Transforms

variable (m n : Fin 16)

theorem shiftDynamic (mnemonic : Mnemonic) (arithmetic : Bool) (right : BitVec 32 → Nat → BitVec 32)
    (hneeds : ∀ pc, Lift.needsPrivilege ⟨.onRegs mnemonic [m, n], pc⟩ = false)
    (heffect : ∀ pc, Lift.effect ⟨.onRegs mnemonic [m, n], pc⟩ = Lift.shiftDynamic ⟨.onRegs mnemonic [m, n], pc⟩ arithmetic)
    (hright : ∀ {x : Frame} {e f : Expr} {a b : BitVec 32}, Evals x e (.word a) → Evals x f (.word b) →
      Evals x (if arithmetic then e.sar f else e.shr f) (.word (right a b.toNat))) :
    Transforms [.onRegs mnemonic [m, n]] fun st => st.setReg n (dynamicShift right (st.reg n) (st.reg m)) := by
  let low := (temp "amount").bitAnd (word 0x1f)
  let places := (word 32).sub low
  let shift : Effect := .branch ((temp "amount").sge (word 0)) ((generalStorage n).write ((temp "v").shl low))
    ((generalStorage n).write (if arithmetic then (temp "v").sar places else (temp "v").shr places))
  refine of_runs (e := .sequence [setTemp "amount" (generalStorage m).read, setTemp "v" (generalStorage n).read, shift])
    (fun pc privileged => lift_eq pc privileged (hneeds pc) ?_) fun st => ?_
  · rw [heffect pc]
    unfold Lift.shiftDynamic
    rw [Context.value_eq (n := m) rfl rfl, Context.value_eq (n := n) rfl rfl]
    show (do let shiftedLeft ← (Context.mk (.onRegs mnemonic [m, n]) pc).write 1 _; _ : Build Effect) = _
    rw [Context.write_eq (n := n) rfl rfl, Context.write_eq (n := n) rfl rfl]
    rfl
  · let amount := st.reg m
    let x : Frame := ⟨st, [("v", .word (st.reg n)), ("amount", .word amount)]⟩
    have hamount : Evals x (temp "amount") (.word amount) := .temp rfl
    have hv : Evals x (temp "v") (.word (st.reg n)) := .temp rfl
    have hlow : Evals x low (.word (amount &&& 0x1f)) := hamount.bitAnd (.const 0x1f word_pos)
    have hplaces : Evals x places (.word (32 - (amount &&& 0x1f))) := (Evals.const 32 word_pos).sub hlow
    have hsign : Evals x ((temp "amount").sge (word 0)) (.bool (decide (0 ≤ amount.toInt))) := hamount.sge (.const 0 word_pos)
    have hshift : Runs x shift (x.setReg n (dynamicShift right (st.reg n) amount)) := by
      refine .branch hsign (fun hle => .setReg ?_) fun hlt => .setReg ?_
      · rw [dynamicShift, if_pos (of_decide_eq_true hle), ← toNat_and_five_bits]
        exact hv.shl hlow
      · rw [dynamicShift, if_neg (of_decide_eq_false hlt), ← toNat_sub_five_bits]
        exact hright hv hplaces
    exact ⟨_, .sequence (.cons (.setTemp (.reg m)) (.cons (.setTemp (.reg n)) (.cons hshift .nil))), rfl⟩

theorem shad : Transforms [.onRegs .shad [m, n]] fun st =>
    st.setReg n (dynamicShift BitVec.sshiftRight (st.reg n) (st.reg m)) :=
  shiftDynamic m n .shad true _ (fun _ => rfl) (fun _ => rfl) .sar

theorem shld : Transforms [.onRegs .shld [m, n]] fun st =>
    st.setReg n (dynamicShift BitVec.ushiftRight (st.reg n) (st.reg m)) :=
  shiftDynamic m n .shld false _ (fun _ => rfl) (fun _ => rfl) .shr

end Cpu.Transforms
end SuperH
