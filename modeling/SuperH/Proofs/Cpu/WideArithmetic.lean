import SuperH.Memory.Linear
import SuperH.Proofs.Cpu.Carry
import SuperH.Proofs.Vm.Eval

/-!
# Flags of wide arithmetic

* `flags_eq_wide_arithmetic` : carry, overflow, borrow and underflow, read off the sign bits of a result that is cut to the
  width of its operands, are what the sum and the difference over the integers say, and so does every interpreter evaluate them.
-/

namespace SuperH

variable {w : Nat}

theorem toNat_carry (h : 0 < w) (c : Bool) : (BitVec.ofNat w c.toNat).toNat = c.toNat := by
  rw [BitVec.toNat_ofNat, Nat.mod_eq_of_lt]
  exact Nat.lt_of_le_of_lt (Bool.toNat_le c) (Nat.one_lt_two_pow (Nat.ne_of_gt h))

/-- With a carry into the sum or the difference of two operands, and a result of their width: the sum carries iff it needs more
bits, and overflows iff it has no two's complement of that width; the difference borrows iff it is negative, and underflows iff
it has no two's complement of that width. The expressions for these flags, on constants, have these values in every interpreter,
on every memory. -/
theorem flags_eq_wide_arithmetic {σ : Type} [Bus σ] (vm : Vm) (bus : σ) (h : 0 < w) (x y : BitVec w) (c : Bool) :
    let sum := BitVec.ofNat w (x.toNat + y.toNat + c.toNat)
    let difference := BitVec.ofInt w (x.toNat - y.toNat - c.toNat)
    let carries := decide (2 ^ w ≤ x.toNat + y.toNat + c.toNat)
    let overflows := decide (¬ FitsSigned w (x.toInt + y.toInt + c.toNat))
    let borrows := decide (x.toNat < y.toNat + c.toNat)
    let underflows := decide (¬ FitsSigned w (x.toInt - y.toInt - c.toNat))
    let constant (v : BitVec w) : Expr := .bits (.ofBitVec v h)
    (addCarry x.msb y.msb sum.msb = carries ∧ addOverflow x.msb y.msb sum.msb = overflows ∧
      subBorrow x.msb y.msb difference.msb = borrows ∧ subUnderflow x.msb y.msb difference.msb = underflows) ∧
    vm.eval (.addCarry (constant sum) (constant x) (constant y)) bus = .ok (.bool carries) bus ∧
    vm.eval (.addOverflow (constant sum) (constant x) (constant y)) bus = .ok (.bool overflows) bus ∧
    vm.eval (.subBorrow (constant difference) (constant x) (constant y)) bus = .ok (.bool borrows) bus ∧
    vm.eval (.subUnderflow (constant difference) (constant x) (constant y)) bus = .ok (.bool underflows) bus := by
  intro sum difference carries overflows borrows underflows constant
  let carry := BitVec.ofNat w c.toNat
  have hcarry : carry.toNat = c.toNat := toNat_carry h c
  have hle : carry.toNat ≤ 1 := hcarry ▸ Bool.toNat_le c
  have hsum : sum = x + y + carry := by
    show BitVec.ofNat w (x.toNat + y.toNat + c.toNat) = _
    rw [BitVec.ofNat_add, BitVec.ofNat_add, BitVec.ofNat_toNat, BitVec.ofNat_toNat, BitVec.setWidth_eq, BitVec.setWidth_eq]
  have hdifference : difference = x - y - carry := by
    show BitVec.ofInt w (x.toNat - y.toNat - c.toNat) = _
    rw [ofInt_sub, ofInt_sub, ofInt_toNat, ofInt_toNat, BitVec.ofInt_natCast]
  have hcarries : addCarry x.msb y.msb sum.msb = carries := by
    rw [hsum, addCarry_eq h x y carry hle, hcarry]
  have hoverflows : addOverflow x.msb y.msb sum.msb = overflows := by
    rw [hsum, addOverflow_eq h x y carry hle, hcarry]
  have hborrows : subBorrow x.msb y.msb difference.msb = borrows := by
    rw [hdifference, subBorrow_eq h x y carry hle, hcarry]
  have hunderflows : subUnderflow x.msb y.msb difference.msb = underflows := by
    rw [hdifference, subUnderflow_eq h x y carry hle, hcarry]
  refine ⟨⟨hcarries, hoverflows, hborrows, hunderflows⟩, ?_⟩
  have hconstant (v : BitVec w) : vm.eval (constant v) bus = .ok (.bits (.ofBitVec v h)) bus := rfl
  rw [← hcarries, ← hoverflows, ← hborrows, ← hunderflows]
  exact ⟨Vm.eval_addCarry (hconstant sum) (hconstant x) (hconstant y),
    Vm.eval_addOverflow (hconstant sum) (hconstant x) (hconstant y),
    Vm.eval_subBorrow (hconstant difference) (hconstant x) (hconstant y),
    Vm.eval_subUnderflow (hconstant difference) (hconstant x) (hconstant y)⟩

/-- The largest signed byte and a carry: the sum does not carry, but it overflows. -/
theorem flags_of_largest_byte :
    let vm : Vm := { config := {}, pc := .zero 32 (by decide) }
    let mem := LinearMemory.zeros 0
    0 < 8 ∧ addCarry false false true = false ∧ addOverflow false false true = true ∧
      vm.eval (.addCarry (.const 8 0x80) (.const 8 0x7f) (.const 8 0)) mem = .ok (.bool false) mem ∧
      vm.eval (.addOverflow (.const 8 0x80) (.const 8 0x7f) (.const 8 0)) mem = .ok (.bool true) mem := by
  intro vm mem
  obtain ⟨⟨hcarry, hoverflow, -⟩, hcarries, hoverflows, -⟩ :=
    flags_eq_wide_arithmetic vm mem (w := 8) (by decide) 0x7f 0 true
  exact ⟨by decide, hcarry, hoverflow, hcarries, hoverflows⟩

end SuperH
