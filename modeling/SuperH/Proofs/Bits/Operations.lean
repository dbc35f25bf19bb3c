import SuperH.Proofs.Bits.Value

/-!
# Values of computed bit-vectors

What the loops over the limbs compute, as operations on the unsigned values: `toNat_sub`, `toNat_mul`, `toNat_and`,
`toNat_or`, `toNat_xor`, `toNat_shl`, `toNat_lshr`, and `msb_eq`, `isZero_eq` and `ucmp_eq` for what is read of operands;
`toNat_ashr` and `scmp_eq` are on the signed values.
-/

namespace SuperH

namespace Limbs

variable {as bs : List Nat}

/-! ## The borrow loop -/

theorem overflowingSub_eq (a b : Nat) :
    overflowingSub a b = ((a + 2 ^ 64 - b) % 2 ^ 64, decide (a < b)) := by
  unfold overflowingSub
  split
  · rw [low_eq, decide_eq_true ‹_›]
  · have h : a + 2 ^ 64 - b = a - b + 2 ^ 64 := by omega
    rw [low_eq, decide_eq_false ‹_›, h, Nat.add_mod_right]

theorem lt_of_mem_sub {borrow : Bool} : ∀ l ∈ sub borrow as bs, l < 2 ^ 64 := by
  have hlow : ∀ n, low n < 2 ^ 64 := fun n => low_eq n ▸ Nat.mod_lt _ (by decide)
  have hsub : ∀ a b, (overflowingSub a b).1 < 2 ^ 64 := by
    intro a b
    unfold overflowingSub
    split <;> exact hlow _
  induction as generalizing borrow bs with
  | nil => simp [sub]
  | cons a as ih =>
    cases bs with
    | nil => simp [sub]
    | cons b bs =>
      intro l hl
      rcases List.mem_cons.1 hl with rfl | hl
      · exact hsub _ _
      · exact ih l hl

/-- The borrow loop subtracts, up to a borrow out of its highest limb. -/
theorem value_sub (borrow : Bool) (hlen : as.length = bs.length) (ha : ∀ l ∈ as, l < 2 ^ 64) (hb : ∀ l ∈ bs, l < 2 ^ 64) :
    ∃ out : Bool, value (sub borrow as bs) + value bs + borrow.toNat = value as + 2 ^ (64 * as.length) * out.toNat := by
  induction as generalizing borrow bs with
  | nil =>
    obtain rfl := List.eq_nil_of_length_eq_zero hlen.symm
    exact ⟨borrow, by simp [sub, value]⟩
  | cons a as ih =>
    cases bs with
    | nil => simp at hlen
    | cons b bs =>
      have ha' := ha a (by simp)
      have hb' := hb b (by simp)
      simp only [sub, overflowingSub_eq, value]
      generalize hnext : (decide (a < b) || decide ((a + 2 ^ 64 - b) % 2 ^ 64 < borrow.toNat)) = next
      obtain ⟨out, hout⟩ := ih next (by simpa using hlen) (fun l hl => ha l (by simp [hl]))
        (fun l hl => hb l (by simp [hl]))
      refine ⟨out, ?_⟩
      rw [List.length_cons, two_pow_limbs_succ, Nat.mul_assoc]
      -- one limb: what it borrows is passed on to the rest
      have hlimb : ((a + 2 ^ 64 - b) % 2 ^ 64 + 2 ^ 64 - borrow.toNat) % 2 ^ 64 + b + borrow.toNat =
          a + 2 ^ 64 * next.toNat := by
        have hle : borrow.toNat ≤ 1 := Bool.toNat_le borrow
        rw [← hnext]
        by_cases h₁ : a < b
        · simp only [h₁, decide_true, Bool.true_or, Bool.toNat_true]
          omega
        · by_cases h₂ : (a + 2 ^ 64 - b) % 2 ^ 64 < borrow.toNat
          · simp only [h₁, h₂, decide_true, decide_false, Bool.false_or, Bool.toNat_true]
            omega
          · simp only [h₁, h₂, decide_false, Bool.or_self, Bool.toNat_false]
            omega
      omega

/-! ## The product loop -/

theorem lt_of_mem_mulRow {a : Nat} {bs acc : List Nat} : ∀ l ∈ mulRow a bs acc, l < 2 ^ 64 := by
  intro l hl
  obtain ⟨sum, -, rfl⟩ := List.mem_map.1 hl
  exact Nat.mod_lt _ (by decide)

theorem lt_of_mem_mulAdd {as bs acc : List Nat} (h : ∀ l ∈ acc, l < 2 ^ 64) : ∀ l ∈ mulAdd as bs acc, l < 2 ^ 64 := by
  induction as generalizing acc with
  | nil => exact h
  | cons a as ih =>
    have hrow : ∀ l ∈ mulRow a bs acc, l < 2 ^ 64 := lt_of_mem_mulRow
    rw [mulAdd]
    cases hmul : mulRow a bs acc with
    | nil => exact fun l hl => absurd hl List.not_mem_nil
    | cons o rest =>
      rw [hmul] at hrow
      obtain ⟨ho, hrest⟩ := List.forall_mem_cons.1 hrow
      exact List.forall_mem_cons.2 ⟨ho, ih hrest⟩

theorem lt_of_mem_zeros : ∀ l ∈ as.map fun _ => 0, l < 2 ^ 64 := by
  intro l hl
  obtain ⟨a, -, rfl⟩ := List.mem_map.1 hl
  decide

theorem lt_of_mem_schoolbook : ∀ l ∈ schoolbook as bs, l < 2 ^ 64 := lt_of_mem_mulAdd lt_of_mem_zeros

theorem lt_of_mem_mul : ∀ l ∈ mul as bs, l < 2 ^ 64 := by
  unfold mul
  split
  · exact lt_of_mem_schoolbook
  · rw [ofNat_eq_digits]
    exact lt_of_mem_digits

/-! ## Bit by bit -/

theorem testBit_value_cons {l : Nat} {ls : List Nat} (hl : l < 2 ^ 64) (i : Nat) :
    (value (l :: ls)).testBit i = if i < 64 then l.testBit i else (value ls).testBit (i - 64) := by
  rw [value, Nat.add_comm, Nat.testBit_two_pow_mul_add _ hl]

/-- An operation that acts on each bit alone acts on each limb alone. -/
theorem value_zipWith {op : Nat → Nat → Nat} {f : Bool → Bool → Bool}
    (hop : ∀ x y i, (op x y).testBit i = f (x.testBit i) (y.testBit i)) (hf : f false false = false)
    (hlen : as.length = bs.length) (ha : ∀ l ∈ as, l < 2 ^ 64) (hb : ∀ l ∈ bs, l < 2 ^ 64) :
    value (List.zipWith op as bs) = op (value as) (value bs) ∧ ∀ l ∈ List.zipWith op as bs, l < 2 ^ 64 := by
  have hlt : ∀ a b, a < 2 ^ 64 → b < 2 ^ 64 → op a b < 2 ^ 64 := by
    intro a b ha hb
    apply Nat.lt_pow_two_of_testBit
    intro i hi
    have hpow : 2 ^ 64 ≤ 2 ^ i := Nat.pow_le_pow_right (by decide) hi
    rw [hop, Nat.testBit_lt_two_pow (Nat.lt_of_lt_of_le ha hpow), Nat.testBit_lt_two_pow (Nat.lt_of_lt_of_le hb hpow), hf]
  induction as generalizing bs with
  | nil =>
    obtain rfl := List.eq_nil_of_length_eq_zero hlen.symm
    refine ⟨Nat.eq_of_testBit_eq fun i => ?_, nofun⟩
    simp [value, hop, hf]
  | cons a as ih =>
    cases bs with
    | nil => simp at hlen
    | cons b bs =>
      have ha' := ha a (by simp)
      have hb' := hb b (by simp)
      obtain ⟨hvalue, hmem⟩ := ih (by simpa using hlen) (fun l hl => ha l (by simp [hl])) (fun l hl => hb l (by simp [hl]))
      refine ⟨Nat.eq_of_testBit_eq fun i => ?_, List.forall_mem_cons.2 ⟨hlt a b ha' hb', hmem⟩⟩
      rw [List.zipWith_cons_cons, testBit_value_cons (hlt a b ha' hb'), hop (value _), testBit_value_cons ha',
        testBit_value_cons hb', hvalue]
      split
      · exact hop a b i
      · exact hop _ _ _

/-! ## The order -/

/-- The highest limb that differs decides the order of the values. -/
theorem cmp_eq (hlen : as.length = bs.length) (ha : ∀ l ∈ as, l < 2 ^ 64) (hb : ∀ l ∈ bs, l < 2 ^ 64) :
    cmp as bs = compare (value as) (value bs) := by
  induction as generalizing bs with
  | nil =>
    obtain rfl := List.eq_nil_of_length_eq_zero hlen.symm
    rfl
  | cons a as ih =>
    cases bs with
    | nil => simp at hlen
    | cons b bs =>
      have ha' := ha a (by simp)
      have hb' := hb b (by simp)
      rw [cmp, ih (by simpa using hlen) (fun l hl => ha l (by simp [hl])) (fun l hl => hb l (by simp [hl])), value, value]
      rcases Nat.lt_trichotomy (value as) (value bs) with h | h | h
      · have hlt : a + 2 ^ 64 * value as < b + 2 ^ 64 * value bs := by omega
        rw [Nat.compare_eq_lt.2 h, Nat.compare_eq_lt.2 hlt, Ordering.lt_then]
      · rw [h, Nat.compare_eq_eq.2 rfl, Ordering.eq_then]
        have hiff : a + 2 ^ 64 * value bs < b + 2 ^ 64 * value bs ↔ a < b := Nat.add_lt_add_iff_right
        have hiff' : b + 2 ^ 64 * value bs < a + 2 ^ 64 * value bs ↔ b < a := Nat.add_lt_add_iff_right
        simp only [Nat.compare_eq_ite_lt, hiff, hiff']
      · have hgt : b + 2 ^ 64 * value bs < a + 2 ^ 64 * value as := by omega
        rw [Nat.compare_eq_gt.2 h, Nat.compare_eq_gt.2 hgt, Ordering.gt_then]

theorem value_replicate (n : Nat) : value (List.replicate n (2 ^ 64 - 1)) = 2 ^ (64 * n) - 1 := by
  induction n with
  | zero => rfl
  | succ n ih =>
    have hpos := Nat.two_pow_pos (64 * n)
    rw [List.replicate_succ, value, ih, two_pow_limbs_succ]
    omega

theorem lt_of_mem_ones {n : Nat} : ∀ l ∈ List.replicate n (2 ^ 64 - 1), l < 2 ^ 64 := by
  intro l hl
  rw [List.eq_of_mem_replicate hl]
  decide

theorem all_zero (ls : List Nat) : ls.all (· == 0) = decide (value ls = 0) := by
  induction ls with
  | nil => rfl
  | cons l ls ih =>
    rw [List.all_cons, ih, value, Bool.eq_iff_iff, Bool.and_eq_true, beq_iff_eq, decide_eq_true_iff, decide_eq_true_iff]
    omega

end Limbs

namespace Bits

variable {x y : Bits}

theorem length_limbs_eq (h : x.width = y.width) : x.limbs.length = y.limbs.length := by
  rw [x.length_limbs, y.length_limbs, h]

/-! ## Differences -/

theorem toNat_sub (h : x.width = y.width) : (x - y).toNat = (2 ^ x.width - y.toNat + x.toNat) % 2 ^ x.width := by
  obtain ⟨k, hk⟩ := Nat.exists_eq_add_of_le (x.length_limbs ▸ Limbs.le_count x.width)
  obtain ⟨out, hout⟩ := Limbs.value_sub false (length_limbs_eq h) x.limb_lt y.limb_lt
  have hy : y.toNat < 2 ^ x.width := h ▸ y.toNat_lt
  rw [← toNat_eq_value, ← toNat_eq_value, hk, Nat.pow_add, Nat.mul_assoc] at hout
  show (ofLimbs x.width x.width_pos (Limbs.sub false x.limbs y.limbs)).toNat = _
  rw [toNat_ofLimbs Limbs.lt_of_mem_sub]
  generalize Limbs.value (Limbs.sub false x.limbs y.limbs) = v at hout
  cases out with
  | false =>
    have hv : 2 ^ x.width - y.toNat + x.toNat = v + 2 ^ x.width := by
      simp only [Bool.toNat_false] at hout
      omega
    rw [hv, Nat.add_mod_right]
  | true =>
    -- the loop's borrow is out of all limbs, the vector's own only out of its width
    have hsplit : 2 ^ x.width * (2 ^ k * true.toNat) = 2 ^ x.width + 2 ^ x.width * (2 ^ k - 1) := by
      have hle : 2 ^ x.width ≤ 2 ^ x.width * 2 ^ k := Nat.le_mul_of_pos_right _ (Nat.two_pow_pos k)
      rw [Bool.toNat_true, Nat.mul_one, Nat.mul_sub, Nat.mul_one, Nat.add_sub_cancel' hle]
    have hv : v = 2 ^ x.width - y.toNat + x.toNat + 2 ^ x.width * (2 ^ k - 1) := by
      rw [hsplit] at hout
      simp only [Bool.toNat_false] at hout
      omega
    rw [hv, Nat.add_mul_mod_self_left]

/-! ## Products -/

/-- Limbs that are the product modulo their range are, cut to the width, the product modulo the range of the vector. -/
theorem toNat_product {f : List Nat → List Nat → List Nat}
    (hvalue : Limbs.value (f x.limbs y.limbs) % 2 ^ (64 * x.limbs.length) =
      Limbs.value x.limbs * Limbs.value y.limbs % 2 ^ (64 * x.limbs.length))
    (hlt : ∀ l ∈ f x.limbs y.limbs, l < 2 ^ 64) : (ofLimbs₂ f x y).toNat = x.toNat * y.toNat % 2 ^ x.width := by
  obtain ⟨k, hk⟩ := Nat.exists_eq_add_of_le (x.length_limbs ▸ Limbs.le_count x.width)
  rw [← toNat_eq_value, ← toNat_eq_value, hk, Nat.pow_add] at hvalue
  have hmod := congrArg (· % 2 ^ x.width) hvalue
  simp only [Nat.mod_mul_right_mod] at hmod
  rw [ofLimbs₂, toNat_ofLimbs hlt, hmod]

theorem toNat_mul (h : x.width = y.width) : (x * y).toNat = x.toNat * y.toNat % 2 ^ x.width :=
  toNat_product (Limbs.value_mul (length_limbs_eq h)) Limbs.lt_of_mem_mul

/-! ## Bitwise operations -/

theorem toNat_zipWith {op : Nat → Nat → Nat} {f : Bool → Bool → Bool}
    (hop : ∀ x y i, (op x y).testBit i = f (x.testBit i) (y.testBit i)) (hf : f false false = false)
    (h : x.width = y.width) : (ofLimbs₂ (List.zipWith op) x y).toNat = op x.toNat y.toNat := by
  obtain ⟨hvalue, hmem⟩ := Limbs.value_zipWith hop hf (length_limbs_eq h) x.limb_lt y.limb_lt
  have hlt : op x.toNat y.toNat < 2 ^ x.width := by
    apply Nat.lt_pow_two_of_testBit
    intro i hi
    have hpow : 2 ^ x.width ≤ 2 ^ i := Nat.pow_le_pow_right (by decide) hi
    rw [hop, Nat.testBit_lt_two_pow (Nat.lt_of_lt_of_le x.toNat_lt hpow),
      Nat.testBit_lt_two_pow (Nat.lt_of_lt_of_le (h ▸ y.toNat_lt) hpow), hf]
  rw [ofLimbs₂, toNat_ofLimbs hmem, hvalue, ← toNat_eq_value, ← toNat_eq_value, Nat.mod_eq_of_lt hlt]

theorem toNat_and (h : x.width = y.width) : (x &&& y).toNat = x.toNat &&& y.toNat :=
  toNat_zipWith Nat.testBit_and rfl h

theorem toNat_or (h : x.width = y.width) : (x ||| y).toNat = x.toNat ||| y.toNat :=
  toNat_zipWith Nat.testBit_or rfl h

theorem toNat_xor (h : x.width = y.width) : (x ^^^ y).toNat = x.toNat ^^^ y.toNat :=
  toNat_zipWith Nat.testBit_xor rfl h

/-! ## Shifts -/

@[simp] theorem toNat_zero {width : Nat} {h : 0 < width} : (zero width h).toNat = 0 := by
  rw [zero, toNat_ofLimbs (List.forall_mem_nil _), Limbs.value, Nat.zero_mod]

@[simp] theorem width_shl {amount : Nat} : (x.shl amount).width = x.width := by
  unfold shl
  split <;> rfl

@[simp] theorem width_lshr {amount : Nat} : (x.lshr amount).width = x.width := by
  unfold lshr
  split <;> rfl

@[simp] theorem width_ashr {amount : Nat} : (x.ashr amount).width = x.width := by
  unfold ashr
  split
  · split <;> rfl
  · rfl

theorem toNat_shl (amount : Nat) : (x.shl amount).toNat = x.toNat <<< amount % 2 ^ x.width := by
  unfold shl
  split
  · obtain ⟨k, rfl⟩ := Nat.exists_eq_add_of_le ‹_›
    rw [toNat_zero, Nat.shiftLeft_eq, Nat.pow_add, ← Nat.mul_assoc, Nat.mul_right_comm, Nat.mul_mod_left]
  · exact toNat_ofNat

theorem toNat_lshr (amount : Nat) : (x.lshr amount).toNat = x.toNat >>> amount := by
  have hlt : x.toNat >>> amount < 2 ^ x.width := Nat.lt_of_le_of_lt (Nat.shiftRight_le ..) x.toNat_lt
  unfold lshr
  split
  · have hzero : x.toNat < 2 ^ amount := Nat.lt_of_lt_of_le x.toNat_lt (Nat.pow_le_pow_right (by decide) ‹_›)
    rw [toNat_zero, Nat.shiftRight_eq_div_pow, Nat.div_eq_of_lt hzero]
  · rw [toNat_ofNat, Nat.mod_eq_of_lt hlt]

@[simp] theorem toNat_ones {width : Nat} {h : 0 < width} : (ones width h).toNat = 2 ^ width - 1 := by
  obtain ⟨k, hk⟩ := Nat.exists_eq_add_of_le (Limbs.le_count width)
  have hpos := Nat.two_pow_pos width
  have hle : 2 ^ width ≤ 2 ^ width * 2 ^ k := Nat.le_mul_of_pos_right _ (Nat.two_pow_pos k)
  have hsplit : 2 ^ width * 2 ^ k - 1 = 2 ^ width - 1 + 2 ^ width * (2 ^ k - 1) := by
    rw [Nat.mul_sub, Nat.mul_one]
    omega
  rw [ones, toNat_ofLimbs Limbs.lt_of_mem_ones, Limbs.value_replicate, hk, Nat.pow_add, hsplit, Nat.add_mul_mod_self_left,
    Nat.mod_eq_of_lt (Nat.sub_lt hpos Nat.one_pos)]

/-- What is shifted out of a vector leaves its sign. -/
theorem toInt_ediv_of_le {amount : Nat} (h : x.width ≤ amount) : x.toInt / 2 ^ amount = if x.msb then -1 else 0 := by
  have hlt : (x.toNat : Int) < 2 ^ x.width := by exact_mod_cast x.toNat_lt
  have hpow : (2 : Int) ^ x.width ≤ 2 ^ amount := by exact_mod_cast Nat.pow_le_pow_right (by decide) h
  have hamount : (0 : Int) < 2 ^ amount := Int.pow_pos (by decide)
  unfold toInt
  split
  · exact ((Int.ediv_emod_unique hamount (r := x.toNat - 2 ^ x.width + 2 ^ amount)).2 (by omega)).1
  · exact Int.ediv_eq_zero_of_lt (Int.natCast_nonneg _) (by omega)

/-- An arithmetic shift down rounds the signed value down. -/
theorem toNat_ashr (amount : Nat) : ((x.ashr amount).toNat : Int) = x.toInt / 2 ^ amount % 2 ^ x.width := by
  have hwidth : (0 : Int) < 2 ^ x.width := Int.pow_pos (by decide)
  have hpow (n : Nat) : ((2 ^ n : Nat) : Int) = 2 ^ n := Int.natCast_pow 2 n
  unfold ashr
  by_cases hle : x.width ≤ amount
  · rw [if_pos hle, toInt_ediv_of_le hle]
    split
    · have hones : (-1 : Int) % 2 ^ x.width = 2 ^ x.width - 1 :=
        ((Int.ediv_emod_unique hwidth (q := -1)).2 (by omega)).2
      rw [toNat_ones, hones, Int.natCast_sub (Nat.two_pow_pos _), hpow]
      rfl
    · rw [toNat_zero, Int.zero_emod]
      rfl
  · obtain ⟨k, hk⟩ := Nat.exists_eq_add_of_le (Nat.le_of_not_le hle)
    have hdiv : ((x.toNat >>> amount : Nat) : Int) = (x.toNat : Int) / 2 ^ amount := by
      rw [Nat.shiftRight_eq_div_pow, Int.natCast_ediv, hpow]
    rw [if_neg hle, toNat_ofNat, Int.natCast_emod, Int.natCast_add, hdiv, hpow, toInt]
    split
    · have hfill : 2 ^ (x.width - amount) ≤ 2 ^ x.width := Nat.pow_le_pow_right (by decide) (Nat.sub_le ..)
      have hquotient : ((x.toNat : Int) - 2 ^ x.width) / 2 ^ amount = x.toNat / 2 ^ amount - 2 ^ (x.width - amount) := by
        rw [hk, Nat.add_sub_cancel_left, Int.pow_add, Int.sub_mul_ediv_left _ _ (Int.pow_ne_zero (by decide))]
      rw [hquotient, Int.natCast_sub hfill, hpow, hpow, ← Int.add_sub_assoc, Int.add_comm, Int.add_sub_assoc,
        Int.add_emod_left]
    · rw [Int.natCast_zero, Int.add_zero]

/-! ## Readings -/

/-- The most significant bit tells the upper half of the range. -/
theorem msb_eq (x : Bits) : x.msb = decide (2 ^ (x.width - 1) ≤ x.toNat) := by
  have hpos := x.width_pos
  have hlt : x.toNat < 2 ^ (x.width - 1 + 1) := by
    rw [Nat.sub_add_cancel hpos]
    exact x.toNat_lt
  rw [msb, testBit, Nat.testBit_eq_decide_div_mod_eq]
  refine decide_eq_decide.2 ⟨fun h => ?_, fun h => ?_⟩
  · refine Nat.le_of_not_lt fun hlow => ?_
    rw [Nat.div_eq_of_lt hlow] at h
    cases h
  · rw [Nat.pow_succ] at hlt
    rw [Nat.div_eq_of_lt_le (by rwa [Nat.one_mul]) (by omega)]

/-- The values in the upper half of the range stand for numbers below zero. -/
theorem toInt_neg_iff (x : Bits) : x.toInt < 0 ↔ x.msb = true := by
  have hlt : (x.toNat : Int) < 2 ^ x.width := by exact_mod_cast x.toNat_lt
  rw [toInt]
  split
  · exact iff_of_true (by omega) ‹_›
  · exact iff_of_false (by omega) ‹_›

theorem isZero_eq (x : Bits) : x.isZero = decide (x.toNat = 0) := by
  rw [isZero, toNat_eq_value, Limbs.all_zero]

/-- The value, if it takes no more than one limb. -/
theorem below?_two_pow (x : Bits) : x.below? (2 ^ 64) = if x.toNat < 2 ^ 64 then some x.toNat else none := by
  have hany : x.limbs.tail.any (· != 0) = !decide (Limbs.value x.limbs.tail = 0) := by
    rw [← Limbs.all_zero, List.all_eq_not_any_not, Bool.not_not]
    rfl
  have hlow : x.low64 < 2 ^ 64 := x.low64_eq ▸ Nat.mod_lt _ (by decide)
  have hsplit : x.toNat = x.low64 + 2 ^ 64 * Limbs.value x.limbs.tail := by
    rw [toNat_eq_value, low64]
    cases x.limbs <;> rfl
  rw [below?, hany, if_pos hlow]
  by_cases hzero : Limbs.value x.limbs.tail = 0
  · rw [hzero, Nat.mul_zero, Nat.add_zero] at hsplit
    rw [hsplit, if_pos hlow, hzero]
    rfl
  · have hlarge : ¬ x.toNat < 2 ^ 64 := by omega
    rw [if_neg hlarge, if_pos (by simpa using hzero)]

theorem ucmp_eq (h : x.width = y.width) : x.ucmp y = .ok (compare x.toNat y.toNat) := by
  rw [ucmp, sameWidth, if_pos h, Limbs.cmp_eq (length_limbs_eq h) x.limb_lt y.limb_lt, toNat_eq_value, toNat_eq_value]

/-- Taking the same off two numbers leaves their order. -/
theorem compare_sub (a b : Nat) (c : Int) : compare ((a : Int) - c) (b - c) = compare a b := by
  rcases Nat.lt_trichotomy a b with h | rfl | h
  · rw [Nat.compare_eq_lt.2 h, Int.compare_eq_lt.2 (by omega)]
  · rw [Nat.compare_eq_eq.2 rfl, Int.compare_eq_eq.2 rfl]
  · rw [Nat.compare_eq_gt.2 h, Int.compare_eq_gt.2 (by omega)]

theorem scmp_eq (h : x.width = y.width) : x.scmp y = .ok (compare x.toInt y.toInt) := by
  have hx := x.toInt_neg_iff
  have hy := y.toInt_neg_iff
  rw [scmp, sameWidth, if_pos h, Limbs.cmp_eq (length_limbs_eq h) x.limb_lt y.limb_lt, ← toNat_eq_value, ← toNat_eq_value]
  refine congrArg Except.ok ?_
  cases hxs : x.msb <;> cases hys : y.msb <;> simp only [hxs, hys, iff_true, Bool.false_eq_true, iff_false] at hx hy
  · rw [toInt, toInt, hxs, hys]
    simpa using (compare_sub x.toNat y.toNat 0).symm
  · exact (Int.compare_eq_gt.2 (by omega)).symm
  · exact (Int.compare_eq_lt.2 (by omega)).symm
  · rw [toInt, toInt, hxs, hys, if_pos rfl, if_pos rfl, h]
    exact (compare_sub ..).symm

end Bits
end SuperH
