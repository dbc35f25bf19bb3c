import SuperH.Proofs.Lift.OnRegisters

/-!
# Comparisons on general registers

What each comparison, and TST, says in T of the values of its operands. `Transforms.compare` and `Transforms.compareZero` are
for the comparisons by an order, of two operands and with zero.
-/

namespace SuperH

open SuperH.Expr SuperH.Effect SuperH.Cpu

/-! ## Bytes of a word -/

/-- A shift and a mask take the byte at a position. -/
theorem toNat_and_byte (x : BitVec 32) (position : Nat) :
    (x >>> position &&& 0xff).toNat = (x.extractLsb' position 8).toNat := by
  rw [BitVec.toNat_and, BitVec.toNat_ushiftRight, BitVec.extractLsb'_toNat]
  exact Nat.and_two_pow_sub_one_eq_mod _ 8

/-- Two words have a byte in common where none of its bits differs. -/
theorem byte_xor_beq_zero (x y : BitVec 32) (position : Nat) :
    ((x ^^^ y) >>> position &&& 0xff == 0) = (x.extractLsb' position 8 == y.extractLsb' position 8) := by
  have hzero : (0 : BitVec 32).toNat = (0 : BitVec 8).toNat := rfl
  rw [Bool.eq_iff_iff, beq_iff_eq, beq_iff_eq, ← BitVec.xor_eq_zero_iff (x := x.extractLsb' position 8),
    ← BitVec.extractLsb'_xor, ← BitVec.toNat_inj, toNat_and_byte, hzero, BitVec.toNat_inj]
  rfl

/-- Some byte of the words is the same at the same place. -/
def commonByte (x y : BitVec 32) : Bool := (List.range 4).any fun i => x.extractLsb' (8 * i) 8 == y.extractLsb' (8 * i) 8

theorem commonByte_eq (x y : BitVec 32) :
    let same (i : Nat) := x.extractLsb' (8 * i) 8 == y.extractLsb' (8 * i) 8
    commonByte x y = ((same 0 || same 1) || (same 2 || same 3)) := by
  intro same
  rw [Bool.or_assoc, ← Bool.or_false (same 3)]
  rfl

theorem commonByte_iff {x y : BitVec 32} :
    commonByte x y = true ↔ ∃ i < 4, x.extractLsb' (8 * i) 8 = y.extractLsb' (8 * i) 8 := by
  simp [commonByte]

namespace Cpu

/-- A rule on two words decides a relation of their values. -/
def Decides (rule : Expr → Expr → Expr) (holds : BitVec 32 → BitVec 32 → Bool) : Prop :=
  ∀ {x : Frame} {e f : Expr} {a b : BitVec 32}, Evals x e (.word a) → Evals x f (.word b) →
    Evals x (rule e f) (.bool (holds a b))

end Cpu

namespace Cpu.Transforms

variable (m n : Fin 16)

/-! ## Two operands -/

theorem cmpEq : Transforms [.onRegs .cmpEq [m, n]] fun st => st.setFlag .t (st.reg m = st.reg n) := by
  refine of_runs (e := Flag.t.assign ((generalStorage m).read.eq (generalStorage n).read))
    (fun pc privileged => lift_eq pc privileged rfl ?_) fun st => ⟨_, .assign ((Evals.reg m).eqBits (.reg n)), rfl⟩
  show Lift.compareEq _ = _
  unfold Lift.compareEq
  rw [Context.value_eq (n := m) rfl rfl, Context.value_eq (n := n) rfl rfl]
  rfl

/-- The target compared with the source. -/
theorem compare (mnemonic : Mnemonic) (rule : Expr → Expr → Expr) (holds : BitVec 32 → BitVec 32 → Bool)
    (hneeds : ∀ pc, Lift.needsPrivilege ⟨.onRegs mnemonic [m, n], pc⟩ = false)
    (heffect : ∀ pc, Lift.effect ⟨.onRegs mnemonic [m, n], pc⟩ = Lift.compare ⟨.onRegs mnemonic [m, n], pc⟩ rule)
    (hrule : Decides rule holds) :
    Transforms [.onRegs mnemonic [m, n]] fun st => st.setFlag .t (holds (st.reg n) (st.reg m)) := by
  refine of_runs (e := Flag.t.assign (rule (generalStorage n).read (generalStorage m).read))
    (fun pc privileged => lift_eq pc privileged (hneeds pc) ?_) fun st => ⟨_, .assign (hrule (.reg n) (.reg m)), rfl⟩
  rw [heffect pc]
  unfold Lift.compare
  rw [Context.value_eq (n := n) rfl rfl, Context.value_eq (n := m) rfl rfl]
  rfl

theorem cmpHs : Transforms [.onRegs .cmpHs [m, n]] fun st => st.setFlag .t ((st.reg m).toNat ≤ (st.reg n).toNat) :=
  compare m n .cmpHs .uge _ (fun _ => rfl) (fun _ => rfl) .uge

theorem cmpGe : Transforms [.onRegs .cmpGe [m, n]] fun st => st.setFlag .t ((st.reg m).toInt ≤ (st.reg n).toInt) :=
  compare m n .cmpGe .sge _ (fun _ => rfl) (fun _ => rfl) .sge

theorem cmpHi : Transforms [.onRegs .cmpHi [m, n]] fun st => st.setFlag .t ((st.reg m).toNat < (st.reg n).toNat) :=
  compare m n .cmpHi .ugt _ (fun _ => rfl) (fun _ => rfl) .ugt

theorem cmpGt : Transforms [.onRegs .cmpGt [m, n]] fun st => st.setFlag .t ((st.reg m).toInt < (st.reg n).toInt) :=
  compare m n .cmpGt .sgt _ (fun _ => rfl) (fun _ => rfl) .sgt

theorem cmpStr : Transforms [.onRegs .cmpStr [m, n]] fun st => st.setFlag .t (commonByte (st.reg m) (st.reg n)) := by
  refine of_runs (e := .sequence [setTemp "diff" ((generalStorage m).read.bitXor (generalStorage n).read),
    Flag.t.assign (((Lift.byteIsZero 0).or (Lift.byteIsZero 8)).or ((Lift.byteIsZero 16).or (Lift.byteIsZero 24)))])
    (fun pc privileged => lift_eq pc privileged rfl ?_) fun st => ?_
  · show Lift.compareBytes _ = _
    unfold Lift.compareBytes
    rw [Context.value_eq (n := m) rfl rfl, Context.value_eq (n := n) rfl rfl]
    rfl
  · let x : Frame := Frame.setTemp ⟨st, []⟩ "diff" (.word (st.reg m ^^^ st.reg n))
    have hbyte (i : Nat) (hi : 8 * i < 2 ^ 32) : Evals x (Lift.byteIsZero (8 * i))
        (.bool ((st.reg m).extractLsb' (8 * i) 8 == (st.reg n).extractLsb' (8 * i) 8)) := by
      have hdiff : Evals x (temp "diff") (.word (st.reg m ^^^ st.reg n)) := .temp rfl
      rw [← byte_xor_beq_zero]
      exact ((hdiff.shrConst (8 * i) hi).bitAnd (.const 0xff word_pos)).isZero
    have hcommon := ((hbyte 0 (by decide)).or (hbyte 1 (by decide))).or ((hbyte 2 (by decide)).or (hbyte 3 (by decide)))
    rw [← commonByte_eq] at hcommon
    exact ⟨_, .sequence (.cons (.setTemp ((Evals.reg m).bitXor (.reg n))) (.cons (.assign hcommon) .nil)), rfl⟩

theorem tst : Transforms [.onRegs .tst [m, n]] fun st => st.setFlag .t (st.reg m &&& st.reg n == 0) := by
  refine of_runs (e := Flag.t.assign (.isZero ((generalStorage m).read.bitAnd (generalStorage n).read)))
    (fun pc privileged => lift_eq pc privileged rfl ?_) fun st => ⟨_, .assign ((Evals.reg m).bitAnd (.reg n)).isZero, rfl⟩
  show Lift.test _ = _
  unfold Lift.test
  rw [Context.value_eq (n := m) rfl rfl, Context.value_eq (n := n) rfl rfl]
  rfl

/-! ## One operand -/

/-- An operand compared with zero. -/
theorem compareZero (mnemonic : Mnemonic) (rule : Expr → Expr → Expr) (holds : BitVec 32 → BitVec 32 → Bool)
    (hneeds : ∀ pc, Lift.needsPrivilege ⟨.onRegs mnemonic [n], pc⟩ = false)
    (heffect : ∀ pc, Lift.effect ⟨.onRegs mnemonic [n], pc⟩ = Lift.compareZero ⟨.onRegs mnemonic [n], pc⟩ rule)
    (hrule : Decides rule holds) :
    Transforms [.onRegs mnemonic [n]] fun st => st.setFlag .t (holds (st.reg n) 0) := by
  refine of_runs (e := Flag.t.assign (rule (generalStorage n).read (word 0)))
    (fun pc privileged => lift_eq pc privileged (hneeds pc) ?_) fun st =>
      ⟨_, .assign (hrule (.reg n) (.const 0 word_pos)), rfl⟩
  rw [heffect pc]
  unfold Lift.compareZero
  rw [Context.value_eq (n := n) rfl rfl]
  rfl

theorem cmpPz : Transforms [.onRegs .cmpPz [n]] fun st => st.setFlag .t (0 ≤ (st.reg n).toInt) :=
  compareZero n .cmpPz .sge (fun a b => b.toInt ≤ a.toInt) (fun _ => rfl) (fun _ => rfl) .sge

theorem cmpPl : Transforms [.onRegs .cmpPl [n]] fun st => st.setFlag .t (0 < (st.reg n).toInt) :=
  compareZero n .cmpPl .sgt (fun a b => b.toInt < a.toInt) (fun _ => rfl) (fun _ => rfl) .sgt

end Cpu.Transforms
end SuperH
