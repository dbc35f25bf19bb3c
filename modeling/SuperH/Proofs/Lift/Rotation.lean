import SuperH.Proofs.Bits.Rotation
import SuperH.Proofs.Lift.OnRegisters

/-!
# Rotations of general registers

* `Transforms.rotl`, `Transforms.rotr`, `Transforms.rotcr` : what the rotations by one place do to the state, beside ROTCL;
* `State.through` : T above a register, as one word of 33 bits. ROTCL and ROTCR rotate it (`rotateThrough_eq`,
  `rotateDownThrough_eq`), ROTL and ROTR the register alone (`rotateUp_eq`, `rotateDown_eq`);
* `iterate_through`, `iterate_alone` : what is done to such a word over and over again.
-/

namespace SuperH

open SuperH.Expr SuperH.Effect SuperH.Cpu

namespace Cpu.State

/-! ## T above a register -/

variable (st : State) (n : Fin 16)

/-- T above the register, as one word. -/
def through : BitVec 33 := BitVec.cons (st.flag .t) (st.reg n)

def setThrough (x : BitVec 33) : State := st.setResult n (x.setWidth 32) x.msb

@[simp] theorem through_setThrough (x : BitVec 33) : (st.setThrough n x).through n = x := by
  rw [through, setThrough, reg_setResult, flag_setResult]
  exact BitVec.cons_msb_setWidth x

theorem setThrough_cons (b : Bool) (v : BitVec 32) : st.setThrough n (BitVec.cons b v) = st.setResult n v b := by
  unfold setThrough
  rw [BitVec.msb_cons, BitVec.setWidth_cons]

theorem setThrough_setThrough (x y : BitVec 33) : (st.setThrough n x).setThrough n y = st.setThrough n y :=
  setResult_setResult ..

theorem setThrough_through : st.setThrough n (st.through n) = st := by
  rw [through, setThrough_cons, setResult_self]

/-! ## One place -/

/-- ROTL: one place up, and in T the bit that went around. -/
def rotateUp : State := st.setResult n (st.reg n <<< 1 ||| st.reg n >>> 31) (st.reg n).msb

/-- ROTR: one place down. -/
def rotateDown : State := st.setResult n (st.reg n >>> 1 ||| st.reg n <<< 31) ((st.reg n).getLsbD 0)

/-- ROTCR: one place down through T. -/
def rotateDownThrough : State := st.setResult n (st.reg n >>> 1 ||| st.flagWord .t <<< 31) ((st.reg n).getLsbD 0)

/-- The bit that ROTL sends around becomes the lowest one. -/
theorem rotateUp_eq :
    st.rotateUp n = st.setResult n ((st.reg n).rotateLeft 1) (((st.reg n).rotateLeft 1).getLsbD 0) := by
  have hbit : ((st.reg n).rotateLeft 1).getLsbD 0 = (st.reg n).getLsbD 31 := getLsbD_rotateLeft_mod _ 1 (i := 31) (by decide)
  rw [hbit]
  rfl

/-- The bit that ROTR sends around becomes the highest one. -/
theorem rotateDown_eq : st.rotateDown n = st.setResult n ((st.reg n).rotateRight 1) ((st.reg n).rotateRight 1).msb := by
  have hbit : ((st.reg n).rotateRight 1).getLsbD 31 = (st.reg n).getLsbD 0 := getLsbD_rotateRight_mod _ 1 (by decide)
  rw [BitVec.msb_eq_getLsbD_last, hbit]
  rfl

theorem getLsbD_flagWord (flag : Flag) (i : Nat) : (st.flagWord flag).getLsbD i = (decide (i = 0) && st.flag flag) := by
  unfold flagWord
  cases st.flag flag <;> simp

/-- ROTCL takes T in at the lowest place, and T is next to the highest one. -/
theorem rotateThrough_eq : st.rotateThrough n = st.setThrough n ((st.through n).rotateLeft 1) := by
  have hrotated : (st.through n).rotateLeft 1 = BitVec.cons (st.reg n).msb (st.reg n <<< 1 ||| st.flagWord .t) := by
    apply BitVec.eq_of_getLsbD_eq
    intro i hi
    simp only [through, BitVec.getLsbD_rotateLeft, BitVec.getLsbD_cons, BitVec.getLsbD_or, BitVec.getLsbD_shiftLeft,
      getLsbD_flagWord, BitVec.msb_eq_getLsbD_last]
    -- the bit that T had, the bit that goes to T, and the bits between
    cases i with
    | zero => simp
    | succ i =>
      by_cases htop : i = 31
      · subst htop
        rfl
      · have hlt : i + 1 < 32 := by omega
        simp [hlt, Nat.ne_of_lt hlt, Nat.lt_succ_of_lt hlt, Nat.ne_of_lt (Nat.lt_of_succ_lt hlt)]
  rw [hrotated, setThrough_cons]
  rfl

/-- ROTCR takes T in at the highest place, and T is next to the lowest one. -/
theorem rotateDownThrough_eq : st.rotateDownThrough n = st.setThrough n ((st.through n).rotateRight 1) := by
  have hrotated : (st.through n).rotateRight 1 =
      BitVec.cons ((st.reg n).getLsbD 0) (st.reg n >>> 1 ||| st.flagWord .t <<< 31) := by
    apply BitVec.eq_of_getLsbD_eq
    intro i hi
    simp only [through, BitVec.getLsbD_rotateRight, BitVec.getLsbD_cons, BitVec.getLsbD_or, BitVec.getLsbD_shiftLeft,
      BitVec.getLsbD_ushiftRight, getLsbD_flagWord]
    -- the bit that goes to T, the bit that T had, and the bits between
    by_cases hflag : i = 32
    · subst hflag
      rfl
    · by_cases htop : i = 31
      · subst htop
        simp
      · have hlt : i < 31 := by omega
        have hne : 1 + i ≠ 32 := by omega
        simp [hflag, hlt, hne, Nat.lt_succ_of_lt hlt]
  rw [hrotated, setThrough_cons]
  rfl

/-! ## Any number of places -/

/-- What is done to T and the register as one word is done to it over and over again. -/
theorem iterate_through {f : State → State} {g : BitVec 33 → BitVec 33} (hf : ∀ st, f st = st.setThrough n (g (st.through n)))
    (k : Nat) : f^[k] st = st.setThrough n (g^[k] (st.through n)) := by
  induction k with
  | zero => exact (setThrough_through st n).symm
  | succ k ih => rw [Function.iterate_succ_apply', ih, hf, through_setThrough, setThrough_setThrough,
      Function.iterate_succ_apply']

/-- What is done to the register alone is, too, and T tells of the last result. -/
theorem iterate_alone {f : State → State} {g : BitVec 32 → BitVec 32} {b : BitVec 32 → Bool}
    (hf : ∀ st, f st = st.setResult n (g (st.reg n)) (b (g (st.reg n)))) (k : Nat) :
    f^[k + 1] st = st.setResult n (g^[k + 1] (st.reg n)) (b (g^[k + 1] (st.reg n))) := by
  induction k with
  | zero => exact hf st
  | succ k ih => rw [Function.iterate_succ_apply', ih, hf, reg_setResult, setResult_setResult,
      ← Function.iterate_succ_apply' g]

end Cpu.State

/-! ## Instructions -/

namespace Cpu.Transforms

variable (n : Fin 16)

/-- The rotations of a register alone set T before they write the register. -/
theorem rotateAlone (mnemonic : Mnemonic) (bitOut rotated : Expr) (b : BitVec 32 → Bool) (r : BitVec 32 → BitVec 32)
    (hneeds : ∀ pc, Lift.needsPrivilege ⟨.onRegs mnemonic [n], pc⟩ = false)
    (heffect : ∀ pc, Lift.effect ⟨.onRegs mnemonic [n], pc⟩ = .ok (.sequence
      [setTemp "v" (generalStorage n).read, Flag.t.assign bitOut, (generalStorage n).write rotated]))
    (hbit : ∀ {x : Frame} {v : BitVec 32}, Evals x (temp "v") (.word v) → Evals x bitOut (.bool (b v)))
    (hrotated : ∀ {x : Frame} {v : BitVec 32}, Evals x (temp "v") (.word v) → Evals x rotated (.word (r v))) :
    Transforms [.onRegs mnemonic [n]] fun st => st.setResult n (r (st.reg n)) (b (st.reg n)) := by
  refine of_runs (fun pc privileged => lift_eq pc privileged (hneeds pc) (heffect pc)) fun st => ?_
  have hv : ∀ {x : Frame}, x.temps.lookup "v" = some (.word (st.reg n)) → Evals x (temp "v") (.word (st.reg n)) := .temp
  refine ⟨_, .sequence (.cons (.setTemp (.reg n)) (.cons (.assign (hbit (hv rfl)))
    (.cons (.setReg (hrotated (hv rfl))) .nil))), ?_⟩
  exact State.setReg_setFlag ..

theorem rotl : Transforms [.onRegs .rotl [n]] (·.rotateUp n) := by
  refine rotateAlone n .rotl (temp "v").msb (Lift.rotatedUp ((temp "v").shr (word 31))) (·.msb) (fun v => v <<< 1 ||| v >>> 31)
    (fun _ => rfl) (fun pc => ?_) .msb fun hv => (hv.shlConst 1).bitOr (hv.shrConst 31)
  show Lift.rotateLeft _ = _
  unfold Lift.rotateLeft
  rw [Context.value_eq (n := n) rfl rfl, Context.write_eq (n := n) rfl rfl]
  rfl

theorem rotr : Transforms [.onRegs .rotr [n]] (·.rotateDown n) := by
  refine rotateAlone n .rotr (temp "v").lsb (Lift.rotatedDown ((temp "v").shl (word 31))) (·.getLsbD 0)
    (fun v => v >>> 1 ||| v <<< 31) (fun _ => rfl) (fun pc => ?_) .lsb fun hv => (hv.shrConst 1).bitOr (hv.shlConst 31)
  show Lift.rotateRight _ = _
  unfold Lift.rotateRight
  rw [Context.value_eq (n := n) rfl rfl, Context.write_eq (n := n) rfl rfl]
  rfl

theorem rotcr : Transforms [.onRegs .rotcr [n]] (·.rotateDownThrough n) := by
  refine of_runs (e := .sequence [setTemp "v" (generalStorage n).read,
    (generalStorage n).write (Lift.rotatedDown (Flag.t.word.shl (word 31))), Flag.t.assign (temp "v").lsb])
    (fun pc privileged => lift_eq pc privileged rfl ?_) fun st => ?_
  · show Lift.rotateRightThrough _ = _
    unfold Lift.rotateRightThrough
    rw [Context.value_eq (n := n) rfl rfl, Context.write_eq (n := n) rfl rfl]
    rfl
  · let v := st.reg n
    let rotated := v >>> 1 ||| st.flagWord .t <<< 31
    let x : Frame := Frame.setTemp ⟨st, []⟩ "v" (.word v)
    let x₁ := x.setReg n rotated
    have hrotated : Evals x (Lift.rotatedDown (Flag.t.word.shl (word 31))) (.word rotated) :=
      ((Evals.temp rfl).shrConst 1).bitOr ((Evals.flagWord .t).shlConst 31)
    have hv : Evals x₁ (temp "v") (.word v) := .temp rfl
    exact ⟨_, .sequence (.cons (.setTemp (.reg n)) (.cons (.setReg hrotated) (.cons (.assign hv.lsb) .nil))), rfl⟩

end Cpu.Transforms
end SuperH
