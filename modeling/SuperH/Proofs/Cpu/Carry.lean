import SuperH.Cpu.Carry

/-!
# What carries, borrows and overflows mean

The rules that read off three sign bits what a sum or a difference of two operands and a carry does, at every width:

* `addCarry_eq`, `subBorrow_eq` : the carry out of a sum and the borrow out of a difference, by the unsigned values;
  `sum_add_carry` and `difference_sub_borrow` weigh them against the result;
* `FitsSigned` : the numbers that have a two's complement (`fitsSigned_iff`);
* `addOverflow_eq`, `subUnderflow_eq` : the sums and differences that have none, by the signed values.
-/

namespace SuperH

variable {w : Nat}

/-- The sign bit tells the upper half of the range. -/
theorem msb_eq_le {p : Nat} (x : BitVec (p + 1)) : x.msb = decide (2 ^ p ≤ x.toNat) := by
  rw [BitVec.msb_eq_decide, Nat.add_sub_cancel]

/-- A sum of two operands and a carry leaves the range at most once. -/
theorem toNat_add_add (x y c : BitVec w) (hc : c.toNat ≤ 1) : (x + y + c).toNat =
    if 2 ^ w ≤ x.toNat + y.toNat + c.toNat then x.toNat + y.toNat + c.toNat - 2 ^ w else x.toNat + y.toNat + c.toNat := by
  have hx := x.isLt
  have hy := y.isLt
  rw [BitVec.toNat_add, BitVec.toNat_add, Nat.mod_add_mod]
  split
  · rw [Nat.mod_eq_sub_mod ‹_›, Nat.mod_eq_of_lt (by omega)]
  · rw [Nat.mod_eq_of_lt (by omega)]

theorem sub_sub_add_add (x y c : BitVec w) : x - y - c + y + c = x := by
  rw [BitVec.add_assoc, BitVec.add_comm y, ← BitVec.add_assoc, BitVec.sub_add_cancel, BitVec.sub_add_cancel]

/-! ## Unsigned values -/

/-- The sum of two operands and a carry leaves the range iff the sign bits say so. -/
theorem addCarry_eq (hw : 0 < w) (x y c : BitVec w) (hc : c.toNat ≤ 1) :
    addCarry x.msb y.msb (x + y + c).msb = decide (2 ^ w ≤ x.toNat + y.toNat + c.toNat) := by
  obtain ⟨p, rfl⟩ : ∃ p, w = p + 1 := ⟨w - 1, by omega⟩
  have hx := x.isLt
  have hy := y.isLt
  have hpow : 2 ^ (p + 1) = 2 ^ p + 2 ^ p := by omega
  rw [msb_eq_le, msb_eq_le, msb_eq_le, toNat_add_add x y c hc, Bool.eq_iff_iff]
  rw [hpow] at hx hy ⊢
  simp only [addCarry, Bool.or_eq_true, Bool.and_eq_true, Bool.not_eq_true', decide_eq_true_iff, decide_eq_false_iff_not]
  split <;> omega

/-- A difference borrows iff the sum of the result and the subtrahend carries. -/
theorem subBorrow_eq_addCarry (x y r : Bool) : subBorrow x y r = addCarry r y x := by
  cases x <;> cases y <;> cases r <;> rfl

/-- The difference of two operands and a borrow goes below zero iff the sign bits say so. -/
theorem subBorrow_eq (hw : 0 < w) (x y c : BitVec w) (hc : c.toNat ≤ 1) :
    subBorrow x.msb y.msb (x - y - c).msb = decide (x.toNat < y.toNat + c.toNat) := by
  generalize hr : x - y - c = r
  have hback : r + y + c = x := hr ▸ sub_sub_add_add x y c
  have hx := toNat_add_add r y c hc
  have hcarry := addCarry_eq hw r y c hc
  rw [hback] at hx hcarry
  rw [subBorrow_eq_addCarry, hcarry, decide_eq_decide, hx]
  have hr := r.isLt
  have hy := y.isLt
  split <;> omega

/-- The carry makes up for what the sum is cut by. -/
theorem sum_add_carry (x y c : BitVec w) (hc : c.toNat ≤ 1) :
    (x + y + c).toNat + 2 ^ w * (decide (2 ^ w ≤ x.toNat + y.toNat + c.toNat)).toNat = x.toNat + y.toNat + c.toNat := by
  rw [toNat_add_add x y c hc]
  split
  · rw [decide_eq_true ‹_›, Bool.toNat_true]
    omega
  · rw [decide_eq_false ‹_›, Bool.toNat_false]
    omega

/-- The borrow makes up for what the difference is raised by. -/
theorem difference_sub_borrow (x y c : BitVec w) (hc : c.toNat ≤ 1) :
    ((x - y - c).toNat : Int) - 2 ^ w * (decide (x.toNat < y.toNat + c.toNat)).toNat = x.toNat - y.toNat - c.toNat := by
  generalize hr : x - y - c = r
  have hback : r + y + c = x := hr ▸ sub_sub_add_add x y c
  have hx := toNat_add_add r y c hc
  have hlt := r.isLt
  have hy := y.isLt
  have hpow : (2 : Int) ^ w = (2 ^ w : Nat) := (Int.natCast_pow 2 w).symm
  rw [hback] at hx
  rw [hpow]
  split at hx
  · rw [decide_eq_true (by omega), Bool.toNat_true]
    omega
  · rw [decide_eq_false (by omega), Bool.toNat_false]
    omega

/-! ## Signed values -/

/-- The number has a two's complement of so many bits. -/
def FitsSigned (w : Nat) (v : Int) : Prop := -2 ^ (w - 1) ≤ v ∧ v < 2 ^ (w - 1)

instance (v : Int) : Decidable (FitsSigned w v) := inferInstanceAs (Decidable (_ ∧ _))

theorem fitsSigned_succ {p : Nat} {v : Int} : FitsSigned (p + 1) v ↔ -(2 ^ p : Nat) ≤ v ∧ v < (2 ^ p : Nat) := by
  rw [FitsSigned, Nat.add_sub_cancel, Int.natCast_pow]
  rfl

/-- A number has a two's complement iff its low bits stand for it. -/
theorem fitsSigned_iff (hw : 0 < w) (v : Int) : FitsSigned w v ↔ (BitVec.ofInt w v).toInt = v := by
  refine ⟨fun h => BitVec.toInt_ofInt_eq_self hw h.1 h.2, fun h => ?_⟩
  rw [← h]
  exact ⟨BitVec.le_toInt _, BitVec.toInt_lt⟩

/-- The upper half of the range stands for negative numbers. -/
theorem toInt_eq_ite {p : Nat} (x : BitVec (p + 1)) :
    x.toInt = if 2 ^ p ≤ x.toNat then (x.toNat : Int) - (2 ^ p + 2 ^ p : Nat) else x.toNat := by
  rw [BitVec.toInt_eq_msb_cond, msb_eq_le, Nat.pow_succ, Nat.mul_two]
  simp only [decide_eq_true_iff]

/-- The sum of two operands and a carry leaves the signed range iff the sign bits say so. -/
theorem addOverflow_eq (hw : 0 < w) (x y c : BitVec w) (hc : c.toNat ≤ 1) :
    addOverflow x.msb y.msb (x + y + c).msb = decide (¬ FitsSigned w (x.toInt + y.toInt + c.toNat)) := by
  obtain ⟨p, rfl⟩ : ∃ p, w = p + 1 := ⟨w - 1, by omega⟩
  have hx := x.isLt
  have hy := y.isLt
  have hpow : 2 ^ (p + 1) = 2 ^ p + 2 ^ p := by omega
  rw [Bool.eq_iff_iff, decide_eq_true_iff, fitsSigned_succ, toInt_eq_ite, toInt_eq_ite, msb_eq_le, msb_eq_le, msb_eq_le,
    toNat_add_add x y c hc]
  rw [hpow] at hx hy ⊢
  simp only [addOverflow, Bool.or_eq_true, Bool.and_eq_true, Bool.not_eq_true', decide_eq_true_iff, decide_eq_false_iff_not]
  generalize 2 ^ p = half at hx hy ⊢
  -- by the side of the carry and the signs of the operands
  split <;> split <;> split <;> omega

theorem ofInt_sub (a b : Int) : BitVec.ofInt w (a - b) = BitVec.ofInt w a - BitVec.ofInt w b := by
  rw [Int.sub_eq_add_neg, BitVec.ofInt_add, BitVec.ofInt_neg, BitVec.sub_eq_add_neg]

theorem ofInt_toNat (x : BitVec w) : BitVec.ofInt w x.toNat = x := by
  rw [BitVec.ofInt_natCast, BitVec.ofNat_toNat, BitVec.setWidth_eq]

/-- A difference leaves the signed range iff the sum of the result and the subtrahend does. -/
theorem subUnderflow_eq_addOverflow (x y r : Bool) : subUnderflow x y r = addOverflow r y x := by
  cases x <;> cases y <;> cases r <;> rfl

/-- The difference of two operands and a borrow leaves the signed range iff the sign bits say so. -/
theorem subUnderflow_eq (hw : 0 < w) (x y c : BitVec w) (hc : c.toNat ≤ 1) :
    subUnderflow x.msb y.msb (x - y - c).msb = decide (¬ FitsSigned w (x.toInt - y.toInt - c.toNat)) := by
  generalize hr : x - y - c = r
  have hback : r + y + c = x := hr ▸ sub_sub_add_add x y c
  have hoverflow := addOverflow_eq hw r y c hc
  rw [hback] at hoverflow
  have hsum : BitVec.ofInt w (r.toInt + y.toInt + c.toNat) = x := by
    rw [BitVec.ofInt_add, BitVec.ofInt_add, BitVec.ofInt_toInt, BitVec.ofInt_toInt, ofInt_toNat, hback]
  have hdifference : BitVec.ofInt w (x.toInt - y.toInt - c.toNat) = r := by
    rw [ofInt_sub, ofInt_sub, BitVec.ofInt_toInt, BitVec.ofInt_toInt, ofInt_toNat, hr]
  -- the sum and the difference each fit iff they are exact
  rw [subUnderflow_eq_addOverflow, hoverflow, decide_eq_decide, fitsSigned_iff hw, fitsSigned_iff hw, hsum, hdifference]
  omega

end SuperH
