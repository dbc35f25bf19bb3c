import SuperH.Bits.Digits

/-!
# Products of limbs

* `schoolbook` : the product of two equally long lists, one row for each limb;
* `mul` : short lists go by the schoolbook, and the time of longer ones does not grow with the
  square of their length.

Both are the product modulo the range of a list (`value_schoolbook`, `value_mul`).
-/

namespace SuperH.Limbs

/-! ## Rows -/

/-- The two-limb sums that arise when `a * bs` is added to `acc`: each is a partial word, a product
of two limbs and the carry, which is the upper limb of the sum before it. -/
def rowSums (a : Nat) : List Nat → List Nat → Nat → List Nat
  | b :: bs, o :: acc, carry =>
    let sum := o + a * b + carry
    sum :: rowSums a bs acc (sum / 2 ^ 64)
  | _, _, _ => []

/-- One row of the schoolbook product, kept to the length of `acc`. -/
def mulRow (a : Nat) (bs acc : List Nat) : List Nat :=
  (rowSums a bs acc 0).map (· % 2 ^ 64)

/-- Adds the product of `as` and `bs` to `acc`, kept to the length of `acc`. A row settles the
lowest limb; the rows after it work one limb higher. -/
def mulAdd : List Nat → List Nat → List Nat → List Nat
  | [], _, acc => acc
  | a :: as, bs, acc =>
    match mulRow a bs acc with
    | [] => []
    | o :: rest => o :: mulAdd as bs rest

theorem length_rowSums {a : Nat} {bs acc : List Nat} (h : acc.length ≤ bs.length) (carry : Nat) :
    (rowSums a bs acc carry).length = acc.length := by
  induction acc generalizing bs carry with
  | nil => cases bs <;> rfl
  | cons o acc ih =>
    cases bs with
    | nil => simp at h
    | cons b bs => simp [rowSums, ih (by simpa using h)]

/-- A row adds a multiple of `bs` and a carry. -/
theorem value_rowSums (a : Nat) {bs acc : List Nat} (h : acc.length ≤ bs.length) (carry : Nat) :
    value ((rowSums a bs acc carry).map (· % 2 ^ 64)) =
      (value acc + a * value bs + carry) % 2 ^ (64 * acc.length) := by
  induction acc generalizing bs carry with
  | nil => cases bs <;> simp [rowSums, value, Nat.mod_one]
  | cons o acc ih =>
    cases bs with
    | nil => simp at h
    | cons b bs =>
      have split : value (o :: acc) + a * value (b :: bs) + carry =
          (o + a * b + carry) + 2 ^ 64 * (value acc + a * value bs) := by
        simp only [value, Nat.mul_add, Nat.mul_left_comm a]
        omega
      rw [split, List.length_cons, two_pow_limbs_succ, Nat.mod_mul, rowSums, List.map_cons, value,
        ih (by simpa using h), Nat.add_mul_mod_self_left, Nat.add_mul_div_left _ _ (by decide),
        Nat.add_comm (value acc + a * value bs)]

theorem value_mulAdd (as : List Nat) {bs acc : List Nat} (h : acc.length ≤ bs.length) :
    value (mulAdd as bs acc) % 2 ^ (64 * acc.length) =
      (value acc + value as * value bs) % 2 ^ (64 * acc.length) := by
  induction as generalizing acc with
  | nil => simp [mulAdd, value]
  | cons a as ih =>
    have hlen : (mulRow a bs acc).length = acc.length := by
      rw [mulRow, List.length_map, length_rowSums h]
    have hval := value_rowSums a h 0
    rw [← mulRow, Nat.add_zero] at hval
    cases acc with
    | nil => simp [Nat.mod_one]
    | cons p acc =>
      obtain ⟨o, rest, hrow⟩ := List.exists_cons_of_length_eq_add_one hlen
      rw [hrow] at hlen hval
      have hrest : rest.length = acc.length := by simpa using hlen
      have ih := @ih rest (by simp only [List.length_cons] at h; omega)
      have split : value (p :: acc) + value (a :: as) * value bs =
          value (p :: acc) + a * value bs + 2 ^ 64 * (value as * value bs) := by
        rw [value.eq_2 a, Nat.add_mul, Nat.mul_assoc, Nat.add_assoc]
      rw [mulAdd, hrow, split, ← Nat.mod_add_mod, ← hval, List.length_cons, two_pow_limbs_succ,
        value, value, ← Nat.add_mod_mod, Nat.mul_mod_mul_left, ← hrest, ih, ← Nat.mul_mod_mul_left,
        Nat.add_mod_mod, Nat.mul_add, Nat.add_assoc]

/-! ## The product -/

/-- The product of two equally long lists, kept to their length. -/
def schoolbook (as bs : List Nat) : List Nat := mulAdd as bs (as.map fun _ => 0)

theorem value_zeros (as : List Nat) : value (as.map fun _ => 0) = 0 := by
  induction as with
  | nil => rfl
  | cons a as ih => simp only [List.map_cons, value, ih, Nat.mul_zero, Nat.add_zero]

theorem value_schoolbook {as bs : List Nat} (h : as.length = bs.length) :
    value (schoolbook as bs) % 2 ^ (64 * as.length) =
      value as * value bs % 2 ^ (64 * as.length) := by
  have zeros : (as.map fun _ => 0).length ≤ bs.length := by simp [h]
  have := value_mulAdd as zeros
  rwa [List.length_map, value_zeros, Nat.zero_add] at this

/-- The most limbs that are multiplied by the schoolbook. -/
def schoolbookLimit : Nat := 64

/-- The product of two equally long lists, kept to their length. -/
def mul (as bs : List Nat) : List Nat :=
  if as.length ≤ schoolbookLimit then schoolbook as bs
  else ofNat as.length (toNat as * toNat bs)

theorem value_mul {as bs : List Nat} (h : as.length = bs.length) :
    value (mul as bs) % 2 ^ (64 * as.length) = value as * value bs % 2 ^ (64 * as.length) := by
  unfold mul
  split
  · exact value_schoolbook h
  · rw [ofNat_eq_digits, value_digits, toNat_eq_value, toNat_eq_value, Nat.mod_mod]

end SuperH.Limbs
