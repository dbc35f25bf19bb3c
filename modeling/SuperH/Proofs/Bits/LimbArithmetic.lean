import SuperH.Proofs.Bits.Operations

/-!
# Arithmetic limb by limb

* `Limbs.productSums` : the two-limb sums of the double loop of a product, row by row; each is below `2 ^ 128`
  (`Limbs.productSums_lt`), and there is one for each pair of limbs that the result has room for
  (`Limbs.length_productSums`);
* `limb_arithmetic` : the loops for sums, differences, products and negatives compute modulo the range of a vector.
-/

namespace SuperH

namespace Limbs

variable {a b o carry : Nat} {as bs acc : List Nat}

/-! ## Sums of two limbs -/

/-- A partial word, a product of two limbs and a carry take two limbs. -/
theorem sum_lt (ha : a < 2 ^ 64) (hb : b < 2 ^ 64) (ho : o < 2 ^ 64) (hcarry : carry < 2 ^ 64) :
    o + a * b + carry < 2 ^ 128 := by
  have hproduct : a * b ≤ (2 ^ 64 - 1) * (2 ^ 64 - 1) := Nat.mul_le_mul (Nat.le_sub_one_of_lt ha) (Nat.le_sub_one_of_lt hb)
  omega

/-- A row keeps its carry to one limb. -/
theorem rowSums_lt (ha : a < 2 ^ 64) (hb : ∀ b ∈ bs, b < 2 ^ 64) (hacc : ∀ o ∈ acc, o < 2 ^ 64) (hcarry : carry < 2 ^ 64) :
    ∀ sum ∈ rowSums a bs acc carry, sum < 2 ^ 128 := by
  induction acc generalizing bs carry with
  | nil => cases bs <;> exact nofun
  | cons o acc ih =>
    cases bs with
    | nil => exact nofun
    | cons b bs =>
      obtain ⟨hb, hbs⟩ := List.forall_mem_cons.1 hb
      obtain ⟨ho, hacc⟩ := List.forall_mem_cons.1 hacc
      have hsum : o + a * b + carry < 2 ^ 128 := sum_lt ha hb ho hcarry
      have hnext : (o + a * b + carry) / 2 ^ 64 < 2 ^ 64 := Nat.div_lt_of_lt_mul hsum
      exact List.forall_mem_cons.2 ⟨hsum, ih hbs hacc hnext⟩

/-! ## All rows -/

/-- The sums of all rows that add the product of `as` and `bs` to `acc`, each row one limb higher than the row before it. -/
def mulAddSums : List Nat → List Nat → List Nat → List Nat
  | [], _, _ => []
  | a :: as, bs, acc => rowSums a bs acc 0 ++ mulAddSums as bs (mulRow a bs acc).tail

/-- The sums that arise in the product of two lists of limbs. -/
def productSums (as bs : List Nat) : List Nat := mulAddSums as bs (as.map fun _ => 0)

/-- A row leaves limbs behind, so the rows after it start as it did. -/
theorem mulAddSums_lt (ha : ∀ a ∈ as, a < 2 ^ 64) (hb : ∀ b ∈ bs, b < 2 ^ 64) (hacc : ∀ o ∈ acc, o < 2 ^ 64) :
    ∀ sum ∈ mulAddSums as bs acc, sum < 2 ^ 128 := by
  induction as generalizing acc with
  | nil => exact nofun
  | cons a as ih =>
    obtain ⟨ha, has⟩ := List.forall_mem_cons.1 ha
    have hrest : ∀ o ∈ (mulRow a bs acc).tail, o < 2 ^ 64 := fun o ho => lt_of_mem_mulRow o (List.mem_of_mem_tail ho)
    exact List.forall_mem_append.2 ⟨rowSums_lt ha hb hacc (by decide), ih has hrest⟩

theorem productSums_lt (ha : ∀ a ∈ as, a < 2 ^ 64) (hb : ∀ b ∈ bs, b < 2 ^ 64) :
    ∀ sum ∈ productSums as bs, sum < 2 ^ 128 :=
  mulAddSums_lt ha hb lt_of_mem_zeros

theorem length_mulAddSums (hlen : acc.length = as.length) (hle : as.length ≤ bs.length) :
    2 * (mulAddSums as bs acc).length = as.length * (as.length + 1) := by
  induction as generalizing acc with
  | nil => rfl
  | cons a as ih =>
    have hrow : (rowSums a bs acc 0).length = acc.length := length_rowSums (hlen ▸ hle) 0
    have htail : (mulRow a bs acc).tail.length = as.length := by
      rw [List.length_tail, mulRow, List.length_map, hrow, hlen, List.length_cons, Nat.add_sub_cancel]
    rw [mulAddSums, List.length_append, Nat.mul_add, ih htail (Nat.le_of_succ_le hle), hrow, hlen, List.length_cons,
      ← Nat.add_mul, Nat.mul_comm, Nat.add_comm 2]

/-- The limbs `i` and `j` are multiplied if and only if their product reaches into the result. -/
theorem length_productSums (h : as.length = bs.length) : 2 * (productSums as bs).length = as.length * (as.length + 1) :=
  length_mulAddSums (List.length_map _) (Nat.le_of_eq h)

end Limbs

namespace Bits

variable {x y : Bits}

/-! ## Vectors -/

/-- Long vectors are multiplied faster, with the same result. -/
theorem mul_eq_schoolbook (h : x.width = y.width) : x * y = ofLimbs₂ Limbs.schoolbook x y := by
  refine ext_toNat rfl ?_
  rw [toNat_mul h, toNat_product (Limbs.value_schoolbook (length_limbs_eq h)) Limbs.lt_of_mem_schoolbook]

theorem toNat_sub_eq_emod (h : x.width = y.width) : ((x - y).toNat : Int) = ((x.toNat : Int) - y.toNat) % 2 ^ x.width := by
  have hle : y.toNat ≤ 2 ^ x.width := h ▸ Nat.le_of_lt y.toNat_lt
  have hpow : ((2 ^ x.width : Nat) : Int) = 2 ^ x.width := Int.natCast_pow 2 _
  have hwrap : (2 : Int) ^ x.width - y.toNat + x.toNat = 2 ^ x.width + (x.toNat - y.toNat) := by omega
  rw [toNat_sub h, Int.natCast_emod, Int.natCast_add, Int.natCast_sub hle, hpow, hwrap, Int.add_emod_left]

theorem toNat_neg (x : Bits) : ((-x).toNat : Int) = -(x.toNat : Int) % 2 ^ x.width := by
  have hsub := toNat_sub_eq_emod (x := zero x.width x.width_pos) (y := x) rfl
  rwa [toNat_zero, Int.natCast_zero, Int.zero_sub] at hsub

theorem sameWidth_eq {α : Type} {operation : String} (h : x.width = y.width) (result : α) :
    sameWidth operation x y result = .ok result := if_pos h

end Bits

/-- Operands of one width have a sum, a difference, a product and a negative of that width, which are those of the numbers
modulo its range. The product is that of the schoolbook, whose double loop adds up a sum for each pair of limbs that the
result has room for; no sum leaves 128 bits. -/
theorem limb_arithmetic {x y : Bits} (h : x.width = y.width) :
    (x.add y = .ok (x + y) ∧ (x + y).width = x.width ∧ (x + y).toNat = (x.toNat + y.toNat) % 2 ^ x.width) ∧
    (x.sub y = .ok (x - y) ∧ (x - y).width = x.width ∧
      ((x - y).toNat : Int) = ((x.toNat : Int) - y.toNat) % 2 ^ x.width) ∧
    (x.mul y = .ok (x * y) ∧ (x * y).width = x.width ∧ (x * y).toNat = x.toNat * y.toNat % 2 ^ x.width) ∧
    ((-x).width = x.width ∧ ((-x).toNat : Int) = -(x.toNat : Int) % 2 ^ x.width) ∧
    x * y = .ofLimbs₂ Limbs.schoolbook x y ∧
    2 * (Limbs.productSums x.limbs y.limbs).length = x.limbs.length * (x.limbs.length + 1) ∧
    ∀ sum ∈ Limbs.productSums x.limbs y.limbs, sum < 2 ^ 128 :=
  ⟨⟨Bits.sameWidth_eq h _, rfl, Bits.toNat_add h⟩, ⟨Bits.sameWidth_eq h _, rfl, Bits.toNat_sub_eq_emod h⟩,
    ⟨Bits.sameWidth_eq h _, rfl, Bits.toNat_mul h⟩, ⟨rfl, Bits.toNat_neg x⟩, Bits.mul_eq_schoolbook h,
    Limbs.length_productSums (Bits.length_limbs_eq h), Limbs.productSums_lt x.limb_lt y.limb_lt⟩

/-- The largest vector of three limbs, of which the third has two bits: all limbs carry and borrow. -/
theorem limb_arithmetic_largest :
    let x := Bits.ones 130
    let y := Bits.ofNat 130 (2 ^ 64 + 1)
    x.width = y.width ∧ (x + y).toNat = 2 ^ 64 ∧ (y - x).toNat = 2 ^ 64 + 2 ∧ (x * x).toNat = 1 ∧ (-x).toNat = 1 ∧
      (Limbs.productSums x.limbs x.limbs).length = 6 ∧ ∀ sum ∈ Limbs.productSums x.limbs x.limbs, sum < 2 ^ 128 := by
  intro x y
  have hx : x.toNat = 2 ^ 130 - 1 := Bits.toNat_ones
  have hy : y.toNat = 2 ^ 64 + 1 := Bits.toNat_ofNat
  have hwx : x.width = 130 := rfl
  have hwy : y.width = 130 := rfl
  obtain ⟨⟨-, -, hadd⟩, -, -, ⟨-, hneg⟩, -⟩ := limb_arithmetic (x := x) (y := y) rfl
  obtain ⟨-, ⟨-, -, hsub⟩, -⟩ := limb_arithmetic (x := y) (y := x) rfl
  obtain ⟨-, -, ⟨-, -, hmul⟩, -, -, hlength, hsums⟩ := limb_arithmetic (x := x) (y := x) rfl
  rw [hx, hy, hwx] at hadd
  rw [hx, hy, hwy] at hsub
  rw [hx, hwx] at hmul hneg
  refine ⟨rfl, hadd.trans (by decide), Int.ofNat.inj (hsub.trans (by decide)), hmul.trans (by decide),
    Int.ofNat.inj (hneg.trans (by decide)), ?_, hsums⟩
  have hthree : x.limbs.length = 3 := by
    rw [x.length_limbs, hwx]
    rfl
  rw [hthree] at hlength
  omega

end SuperH
