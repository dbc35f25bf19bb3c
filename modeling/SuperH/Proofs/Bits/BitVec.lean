import SuperH.Proofs.Bits.Operations

/-!
# Bit-vectors of a known width

`Bits.ofBitVec` is the vector of a width that is known beforehand, with one equation for each operation that has a
counterpart there; `toNat_eq_toInt_emod` turns a signed value into an unsigned one.
-/

namespace SuperH

/-- The unsigned value is the signed one modulo the range. -/
theorem toNat_eq_toInt_emod {w : Nat} (x : BitVec w) : (x.toNat : Int) = x.toInt % 2 ^ w := by
  have hrange : ((2 ^ w : Nat) : Int) = 2 ^ w := Int.natCast_pow 2 w
  conv => lhs; rw [← BitVec.ofInt_toInt (x := x), BitVec.toNat_ofInt, hrange]
  exact Int.toNat_of_nonneg (Int.emod_nonneg _ (Int.pow_ne_zero (by decide)))

namespace Bits

variable {w : Nat} {h : 0 < w} (x y : BitVec w)

/-- The vector with the given bits. -/
def ofBitVec (x : BitVec w) (h : 0 < w) : Bits := ofNat w x.toNat h

@[simp] theorem width_ofBitVec : (ofBitVec x h).width = w := rfl

@[simp] theorem toNat_ofBitVec : (ofBitVec x h).toNat = x.toNat := by
  rw [ofBitVec, toNat_ofNat, Nat.mod_eq_of_lt x.isLt]

theorem ofBitVec_ofNat (v : Nat) : ofBitVec (BitVec.ofNat w v) h = ofNat w v h := by
  refine ext_toNat rfl ?_
  rw [toNat_ofBitVec, BitVec.toNat_ofNat, toNat_ofNat]

/-- A vector of a known width has given bits. -/
theorem exists_ofBitVec {v : Bits} (h : v.width = w) (hpos : 0 < w) : ∃ x : BitVec w, v = ofBitVec x hpos := by
  subst h
  refine ⟨BitVec.ofNat _ v.toNat, ext_toNat rfl ?_⟩
  rw [toNat_ofBitVec, BitVec.toNat_ofNat, Nat.mod_eq_of_lt v.toNat_lt]

theorem eq_ofBitVec (v : Bits) : ∃ (w : Nat) (h : 0 < w) (x : BitVec w), v = ofBitVec x h :=
  ⟨v.width, v.width_pos, exists_ofBitVec rfl v.width_pos⟩

/-! ## Operations -/

theorem width_eq_ofBitVec : (ofBitVec x h).width = (ofBitVec y h).width := rfl

theorem sameWidth_ofBitVec {operation : String} {v : Bits} {z : BitVec w} (hw : v.width = w) (hv : v.toNat = z.toNat) :
    sameWidth operation (ofBitVec x h) (ofBitVec y h) v = .ok (ofBitVec z h) := by
  rw [sameWidth, if_pos (width_eq_ofBitVec x y)]
  refine congrArg Except.ok (ext_toNat hw ?_)
  rw [hv, toNat_ofBitVec]

theorem add_ofBitVec : (ofBitVec x h).add (ofBitVec y h) = .ok (ofBitVec (x + y) h) := by
  apply sameWidth_ofBitVec x y rfl
  rw [toNat_add (width_eq_ofBitVec x y), toNat_ofBitVec, toNat_ofBitVec, BitVec.toNat_add, width_ofBitVec]

theorem sub_ofBitVec : (ofBitVec x h).sub (ofBitVec y h) = .ok (ofBitVec (x - y) h) := by
  apply sameWidth_ofBitVec x y rfl
  rw [toNat_sub (width_eq_ofBitVec x y), toNat_ofBitVec, toNat_ofBitVec, BitVec.toNat_sub, width_ofBitVec]

theorem and_ofBitVec : (ofBitVec x h).and (ofBitVec y h) = .ok (ofBitVec (x &&& y) h) := by
  apply sameWidth_ofBitVec x y rfl
  rw [toNat_and (width_eq_ofBitVec x y), toNat_ofBitVec, toNat_ofBitVec, BitVec.toNat_and]

theorem or_ofBitVec : (ofBitVec x h).or (ofBitVec y h) = .ok (ofBitVec (x ||| y) h) := by
  apply sameWidth_ofBitVec x y rfl
  rw [toNat_or (width_eq_ofBitVec x y), toNat_ofBitVec, toNat_ofBitVec, BitVec.toNat_or]

theorem xor_ofBitVec : (ofBitVec x h).xor (ofBitVec y h) = .ok (ofBitVec (x ^^^ y) h) := by
  apply sameWidth_ofBitVec x y rfl
  rw [toNat_xor (width_eq_ofBitVec x y), toNat_ofBitVec, toNat_ofBitVec, BitVec.toNat_xor]

theorem shl_ofBitVec (n : Nat) : (ofBitVec x h).shl n = ofBitVec (x <<< n) h := by
  refine ext_toNat width_shl ?_
  rw [toNat_shl, toNat_ofBitVec, toNat_ofBitVec, BitVec.toNat_shiftLeft, width_ofBitVec]

theorem mul_ofBitVec : (ofBitVec x h).mul (ofBitVec y h) = .ok (ofBitVec (x * y) h) := by
  apply sameWidth_ofBitVec x y rfl
  rw [toNat_mul (width_eq_ofBitVec x y), toNat_ofBitVec, toNat_ofBitVec, BitVec.toNat_mul, width_ofBitVec]

theorem lshr_ofBitVec (n : Nat) : (ofBitVec x h).lshr n = ofBitVec (x >>> n) h := by
  refine ext_toNat width_lshr ?_
  rw [toNat_lshr, toNat_ofBitVec, toNat_ofBitVec, BitVec.toNat_ushiftRight]

/-! ## Readings -/

@[simp] theorem msb_ofBitVec : (ofBitVec x h).msb = x.msb := by
  rw [msb_eq, toNat_ofBitVec, BitVec.msb_eq_decide]
  rfl

theorem lsb_ofBitVec : (ofBitVec x h).lsb = x.getLsbD 0 := by
  rw [lsb, testBit, toNat_ofBitVec, BitVec.testBit_toNat]

@[simp] theorem toInt_ofBitVec : (ofBitVec x h).toInt = x.toInt := by
  rw [toInt, msb_ofBitVec, toNat_ofBitVec, width_ofBitVec, BitVec.toInt_eq_msb_cond, Int.natCast_pow]
  rfl

theorem isZero_ofBitVec : (ofBitVec x h).isZero = (x == 0) := by
  rw [isZero_eq, toNat_ofBitVec, Bool.eq_iff_iff, decide_eq_true_iff, beq_iff_eq, BitVec.toNat_eq]
  rfl

theorem ucmp_ofBitVec : (ofBitVec x h).ucmp (ofBitVec y h) = .ok (compare x.toNat y.toNat) := by
  rw [ucmp_eq (width_eq_ofBitVec x y), toNat_ofBitVec, toNat_ofBitVec]

theorem scmp_ofBitVec : (ofBitVec x h).scmp (ofBitVec y h) = .ok (compare x.toInt y.toInt) := by
  rw [scmp_eq (width_eq_ofBitVec x y), toInt_ofBitVec, toInt_ofBitVec]

theorem ashr_ofBitVec (n : Nat) : (ofBitVec x h).ashr n = ofBitVec (x.sshiftRight n) h := by
  refine ext_toNat width_ashr (Int.ofNat.inj ?_)
  refine (toNat_ashr n).trans ?_
  rw [toInt_ofBitVec, width_ofBitVec, toNat_ofBitVec]
  refine Eq.trans ?_ (toNat_eq_toInt_emod _).symm
  rw [BitVec.toInt_sshiftRight, Int.shiftRight_eq_div_pow, Int.natCast_pow]
  rfl

/-! ## Other widths -/

variable {v : Nat} (hv : 0 < v)

theorem setWidth_ofBitVec : (ofBitVec x h).setWidth v hv = ofBitVec (x.setWidth v) hv := by
  refine ext_toNat rfl ?_
  rw [toNat_setWidth, toNat_ofBitVec, toNat_ofBitVec, BitVec.toNat_setWidth]

theorem signExtend_ofBitVec : (ofBitVec x h).signExtend v hv = ofBitVec (x.signExtend v) hv := by
  refine ext_toNat rfl ?_
  have hlt := (x.signExtend v).isLt
  rw [BitVec.toNat_signExtend, BitVec.toNat_setWidth] at hlt
  rw [signExtend, toNat_ofNat, toNat_ofBitVec, toNat_ofBitVec, width_ofBitVec, msb_ofBitVec, BitVec.toNat_signExtend,
    BitVec.toNat_setWidth]
  rw [← Nat.mod_eq_of_lt hlt, Nat.mod_add_mod]
  split
  · rfl
  · rfl

end Bits
end SuperH
