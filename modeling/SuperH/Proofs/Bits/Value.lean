import SuperH.Bits.Basic

/-!
# Values of constructed bit-vectors

* `value_trim` : cutting limbs to a width is a remainder;
* `toNat_ofNat`, `toNat_setWidth`, `toNat_add` : the unsigned values of numbers cut to a width, of resized vectors
  and of sums; `ofLeBytes_eq`, `ofLeBytes_of_lt` : the vector of a byte image;
* `low64_eq`, `below?_eq` : what is read of the lowest limb.
-/

namespace SuperH

namespace Limbs

/-- Cutting limbs to `width` live bits is the remainder modulo `2 ^ width`. -/
theorem value_trim {n width : Nat} {ls : List Nat} (h : width ≤ 64 * n) (hl : ∀ l ∈ ls, l < 2 ^ 64) :
    value (trim n width ls) = value ls % 2 ^ width := by
  induction n generalizing width ls with
  | zero =>
    obtain rfl : width = 0 := by omega
    simp [trim, value, Nat.mod_one]
  | succ n ih =>
    have hhead : ls.headD 0 < 2 ^ 64 := by
      cases ls with
      | nil => simp
      | cons l ls => exact hl l (by simp)
    have hls : value ls = ls.headD 0 + 2 ^ 64 * value ls.tail := by cases ls <;> rfl
    have hn : width - 64 ≤ 64 * n := by omega
    have ih : value (trim n (width - 64) ls.tail) = value ls.tail % 2 ^ (width - 64) :=
      ih hn fun l hm => hl l (List.mem_of_mem_tail hm)
    rw [trim, value, ih, cut_eq]
    rcases Nat.le_total width 64 with hw | hw
    · obtain ⟨k, hk⟩ := Nat.exists_eq_add_of_le hw
      have hsplit : (2 : Nat) ^ 64 * value ls.tail = 2 ^ width * (2 ^ k * value ls.tail) := by
        rw [← Nat.mul_assoc, ← Nat.pow_add, ← hk]
      rw [Nat.sub_eq_zero_of_le hw, Nat.pow_zero, Nat.mod_one, Nat.mul_zero, Nat.add_zero, Nat.min_eq_left hw, hls,
        hsplit, Nat.add_mul_mod_self_left]
    · obtain ⟨k, hk⟩ := Nat.exists_eq_add_of_le hw
      rw [hk, Nat.add_sub_cancel_left, Nat.min_eq_right (by omega), Nat.mod_eq_of_lt hhead, hls, Nat.pow_add, Nat.mod_mul,
        Nat.add_mul_mod_self_left, Nat.mod_eq_of_lt hhead, Nat.add_mul_div_left _ _ (by decide),
        Nat.div_eq_of_lt hhead, Nat.zero_add]

theorem lt_of_mem_digits {n v : Nat} : ∀ l ∈ digits n v, l < 2 ^ 64 := by
  induction n generalizing v with
  | zero => simp [digits]
  | succ n ih =>
    intro l hl
    rcases List.mem_cons.1 hl with rfl | hl
    · exact Nat.mod_lt _ (by decide)
    · exact ih l hl

/-! ## Byte images -/

theorem two_pow_bytes_succ (n : Nat) : 2 ^ (8 * (n + 1)) = 2 ^ 8 * 2 ^ (8 * n) := by
  rw [Nat.mul_succ, Nat.add_comm, Nat.pow_add]

/-- The first bytes are the low ones. -/
theorem ofLeBytes_take (n : Nat) (bs : List UInt8) : ofLeBytes (bs.take n) = ofLeBytes bs % 2 ^ (8 * n) := by
  induction n generalizing bs with
  | zero => rw [List.take_zero, ofLeBytes, Nat.mul_zero, Nat.pow_zero, Nat.mod_one]
  | succ n ih =>
    cases bs with
    | nil => rw [List.take_nil, ofLeBytes, Nat.zero_mod]
    | cons b bs =>
      have hb := b.toNat_lt
      have hlow : (b.toNat + 2 ^ 8 * ofLeBytes bs) % 2 ^ 8 = b.toNat := by omega
      have hhigh : (b.toNat + 2 ^ 8 * ofLeBytes bs) / 2 ^ 8 = ofLeBytes bs := by omega
      rw [List.take_succ_cons, ofLeBytes, ih, ofLeBytes, two_pow_bytes_succ, Nat.mod_mul, hlow, hhigh]

theorem ofLeBytes_drop (n : Nat) (bs : List UInt8) : ofLeBytes (bs.drop n) = ofLeBytes bs / 2 ^ (8 * n) := by
  induction n generalizing bs with
  | zero => rw [List.drop_zero, Nat.mul_zero, Nat.pow_zero, Nat.div_one]
  | succ n ih =>
    cases bs with
    | nil => rw [List.drop_nil, ofLeBytes, Nat.zero_div]
    | cons b bs =>
      have hb := b.toNat_lt
      have hhigh : (b.toNat + 2 ^ 8 * ofLeBytes bs) / 2 ^ 8 = ofLeBytes bs := by omega
      rw [List.drop_succ_cons, ih, ofLeBytes, two_pow_bytes_succ, ← Nat.div_div_eq_div_mul, hhigh]

/-- The limbs of an image hold its low bits. -/
theorem value_ofBytes (n : Nat) (bs : List UInt8) : value (ofBytes n bs) = ofLeBytes bs % 2 ^ (64 * n) := by
  induction n generalizing bs with
  | zero => rw [ofBytes, value, Nat.mul_zero, Nat.pow_zero, Nat.mod_one]
  | succ n ih => rw [ofBytes, value, ih, ofLeBytes_take, ofLeBytes_drop, two_pow_limbs_succ, Nat.mod_mul]

/-- Only the low bytes of a number are written. -/
theorem leBytes_mod (n v : Nat) : leBytes n (v % 2 ^ (8 * n)) = leBytes n v := by
  have h := leBytes_ofLeBytes (leBytes n v)
  rwa [length_leBytes, ofLeBytes_leBytes] at h

theorem leBytes_add (m n v : Nat) : leBytes (m + n) v = leBytes m v ++ leBytes n (v / 2 ^ (8 * m)) := by
  induction m generalizing v with
  | zero => rw [Nat.zero_add, Nat.mul_zero, Nat.pow_zero, Nat.div_one, leBytes, List.nil_append]
  | succ m ih => rw [Nat.succ_add, leBytes, ih, leBytes, List.cons_append, Nat.div_div_eq_div_mul, two_pow_bytes_succ]

theorem flatMap_leBytes {ls : List Nat} (h : ∀ l ∈ ls, l < 2 ^ 64) :
    ls.flatMap (leBytes 8) = leBytes (8 * ls.length) (value ls) := by
  induction ls with
  | nil => rfl
  | cons l ls ih =>
    have hl := h l List.mem_cons_self
    have hlow : leBytes 8 (l + 2 ^ 64 * value ls) = leBytes 8 l := by
      rw [← leBytes_mod 8 (l + _), Nat.add_mul_mod_self_left, leBytes_mod]
    have hhigh : (l + 2 ^ 64 * value ls) / 2 ^ (8 * 8) = value ls := by omega
    rw [List.flatMap_cons, ih fun x hx => h x (List.mem_cons_of_mem _ hx), List.length_cons, Nat.mul_succ, Nat.add_comm _ 8,
      leBytes_add, value, hlow, hhigh]

theorem lt_of_mem_ofBytes {n : Nat} {bs : List UInt8} : ∀ l ∈ ofBytes n bs, l < 2 ^ 64 := by
  induction n generalizing bs with
  | zero => exact nofun
  | succ n ih =>
    refine List.forall_mem_cons.2 ⟨?_, ih⟩
    rw [ofLeBytes_take]
    exact Nat.mod_lt _ (Nat.two_pow_pos _)

/-! ## The carry loop -/

theorem overflowingAdd_eq (a b : Nat) : overflowingAdd a b = ((a + b) % 2 ^ 64, decide (2 ^ 64 ≤ a + b)) := by
  rw [overflowingAdd, low_eq]

theorem lt_of_mem_add {carry : Bool} {as bs : List Nat} : ∀ l ∈ add carry as bs, l < 2 ^ 64 := by
  induction as generalizing carry bs with
  | nil => simp [add]
  | cons a as ih =>
    cases bs with
    | nil => simp [add]
    | cons b bs =>
      intro l hl
      simp only [add, overflowingAdd_eq] at hl
      rcases List.mem_cons.1 hl with rfl | hl
      · exact Nat.mod_lt _ (by decide)
      · exact ih l hl

/-- The carry loop adds modulo the range of its limbs. -/
theorem value_add {carry : Bool} {as bs : List Nat} (hlen : as.length = bs.length) (ha : ∀ l ∈ as, l < 2 ^ 64)
    (hb : ∀ l ∈ bs, l < 2 ^ 64) :
    value (add carry as bs) = (value as + value bs + carry.toNat) % 2 ^ (64 * as.length) := by
  induction as generalizing carry bs with
  | nil => simp [add, value, Nat.mod_one]
  | cons a as ih =>
    cases bs with
    | nil => simp at hlen
    | cons b bs =>
      have ha' := ha a (by simp)
      have hb' := hb b (by simp)
      have hc : carry.toNat ≤ 1 := by cases carry <;> decide
      simp only [add, overflowingAdd_eq, value]
      rw [ih (by simpa using hlen) (fun l hl => ha l (by simp [hl])) (fun l hl => hb l (by simp [hl])),
        List.length_cons, two_pow_limbs_succ, Nat.mod_mul]
      have hlow : ((a + b) % 2 ^ 64 + carry.toNat) % 2 ^ 64 =
          (a + 2 ^ 64 * value as + (b + 2 ^ 64 * value bs) + carry.toNat) % 2 ^ 64 := by omega
      have hcarry : (decide (2 ^ 64 ≤ a + b) || decide (2 ^ 64 ≤ (a + b) % 2 ^ 64 + carry.toNat)).toNat =
          (a + b + carry.toNat) / 2 ^ 64 := by
        by_cases h₁ : 2 ^ 64 ≤ a + b
        · simp only [h₁, decide_true, Bool.true_or, Bool.toNat_true]
          omega
        · have h₂ : (a + b) % 2 ^ 64 = a + b := Nat.mod_eq_of_lt (by omega)
          by_cases h₃ : 2 ^ 64 ≤ a + b + carry.toNat
          · simp only [h₂, h₃, decide_true, Bool.or_true, Bool.toNat_true]
            omega
          · simp only [h₁, h₂, h₃, decide_false, Bool.or_self, Bool.toNat_false]
            omega
      have hhigh : (a + 2 ^ 64 * value as + (b + 2 ^ 64 * value bs) + carry.toNat) / 2 ^ 64 =
          value as + value bs + (a + b + carry.toNat) / 2 ^ 64 := by omega
      rw [hlow, hhigh, hcarry]

end Limbs

namespace Bits

/-! ## Construction -/

theorem toNat_ofLimbs {width : Nat} {h : 0 < width} {ls : List Nat} (hl : ∀ l ∈ ls, l < 2 ^ 64) :
    (ofLimbs width h ls).toNat = Limbs.value ls % 2 ^ width := by
  rw [toNat_eq_value]
  exact Limbs.value_trim (Limbs.le_count width) hl

@[simp] theorem width_ofLimbs {width : Nat} {h : 0 < width} {ls : List Nat} : (ofLimbs width h ls).width = width := rfl

@[simp] theorem width_ofNat {width v : Nat} {h : 0 < width} : (ofNat width v h).width = width := rfl

@[simp] theorem toNat_ofNat {width v : Nat} {h : 0 < width} : (ofNat width v h).toNat = v % 2 ^ width := by
  obtain ⟨k, hk⟩ := Nat.exists_eq_add_of_le (Limbs.le_count width)
  rw [ofNat, Limbs.ofNat_eq_digits, toNat_ofLimbs Limbs.lt_of_mem_digits, Limbs.value_digits, hk, Nat.pow_add,
    Nat.mod_mul_right_mod]

/-- The vector of a byte image, in as many bits as a 32-bit number of them leaves. -/
theorem ofLeBytes_eq (bytes : List UInt8) : ofLeBytes bytes =
    sized (8 * bytes.length % 2 ^ 32) fun h => ofNat (8 * bytes.length % 2 ^ 32) (SuperH.ofLeBytes bytes) h := by
  refine congrArg (sized _) (funext fun h => ext_toNat rfl ?_)
  obtain ⟨k, hk⟩ := Nat.exists_eq_add_of_le (Limbs.le_count (8 * bytes.length % 2 ^ 32))
  rw [toNat_ofLimbs Limbs.lt_of_mem_ofBytes, Limbs.value_ofBytes, toNat_ofNat, hk, Nat.pow_add, Nat.mod_mul_right_mod]

/-- A number of bits that 32 bits hold is the width. -/
theorem ofLeBytes_of_lt {bytes : List UInt8} (h : 0 < 8 * bytes.length) (hlt : 8 * bytes.length < 2 ^ 32) :
    ofLeBytes bytes = .ok (ofNat (8 * bytes.length) (SuperH.ofLeBytes bytes) h) := by
  have hwidth : 8 * bytes.length % 2 ^ 32 = 8 * bytes.length := Nat.mod_eq_of_lt hlt
  rw [ofLeBytes_eq, sized, dif_pos (hwidth.symm ▸ h)]
  refine congrArg Except.ok (ext_toNat hwidth ?_)
  rw [toNat_ofNat, toNat_ofNat, hwidth]

/-- The bytes of a vector are those of its value. -/
theorem toLeBytes_eq (x : Bits) : x.toLeBytes = leBytes ((x.width + 7) / 8) x.toNat := by
  have hle : (x.width + 7) / 8 ≤ 8 * x.limbs.length := by
    rw [x.length_limbs, Limbs.count]
    omega
  obtain ⟨rest, hrest⟩ := Nat.exists_eq_add_of_le hle
  rw [toLeBytes, Limbs.flatMap_leBytes x.limb_lt, ← toNat_eq_value, hrest, Limbs.leBytes_add,
    List.take_left' (length_leBytes ..)]

@[simp] theorem width_zero {width : Nat} {h : 0 < width} : (zero width h).width = width := rfl

@[simp] theorem width_ofBool {b : Bool} : (ofBool b).width = 1 := rfl

@[simp] theorem toNat_ofBool {b : Bool} : (ofBool b).toNat = b.toNat := by
  cases b <;> simp [ofBool]

@[simp] theorem width_setWidth {x : Bits} {width : Nat} {h : 0 < width} : (x.setWidth width h).width = width := rfl

@[simp] theorem toNat_setWidth {x : Bits} {width : Nat} {h : 0 < width} :
    (x.setWidth width h).toNat = x.toNat % 2 ^ width := by
  rw [setWidth, toNat_ofLimbs x.limb_lt, ← toNat_eq_value]

/-- A vector cut to its own width is unchanged. -/
theorem setWidth_self {x : Bits} {h : 0 < x.width} : x.setWidth x.width h = x :=
  ext_toNat rfl (by rw [toNat_setWidth, Nat.mod_eq_of_lt x.toNat_lt])

@[simp] theorem width_signExtend {x : Bits} {width : Nat} {h : 0 < width} : (x.signExtend width h).width = width := rfl

/-! ## Sums -/

@[simp] theorem width_add {x y : Bits} : (x + y).width = x.width := rfl

theorem width_of_add {x y z : Bits} (h : x.add y = .ok z) : z.width = y.width := by
  unfold add sameWidth at h
  split at h
  · rename_i hw
    obtain rfl := Except.ok.inj h
    exact hw
  · cases h

theorem toNat_add {x y : Bits} (h : x.width = y.width) : (x + y).toNat = (x.toNat + y.toNat) % 2 ^ x.width := by
  have hlen : x.limbs.length = y.limbs.length := by rw [x.length_limbs, y.length_limbs, h]
  obtain ⟨k, hk⟩ := Nat.exists_eq_add_of_le (x.length_limbs ▸ Limbs.le_count x.width)
  show (ofLimbs x.width x.width_pos (Limbs.add false x.limbs y.limbs)).toNat = _
  rw [toNat_ofLimbs Limbs.lt_of_mem_add, Limbs.value_add hlen x.limb_lt y.limb_lt, hk, Nat.pow_add,
    Nat.mod_mul_right_mod, ← toNat_eq_value, ← toNat_eq_value, Bool.toNat_false, Nat.add_zero]

/-! ## The lowest limb -/

theorem low64_eq (x : Bits) : x.low64 = x.toNat % 2 ^ 64 := by
  rw [toNat_eq_value, low64]
  cases h : x.limbs with
  | nil => rfl
  | cons l ls =>
    have hl : l < 2 ^ 64 := x.limb_lt l (by simp [h])
    rw [List.headD_cons, Limbs.value, Nat.add_mul_mod_self_left, Nat.mod_eq_of_lt hl]

theorem lsb_eq (x : Bits) : x.lsb = decide (x.toNat % 2 = 1) := by
  rw [lsb, testBit, Nat.testBit_zero]

/-- A vector of one limb has no more limbs. -/
theorem tail_limbs {x : Bits} (h : x.width ≤ 64) : x.limbs.tail = [] := by
  have hlen := x.length_limbs
  have hpos := x.width_pos
  rw [Limbs.count] at hlen
  apply List.eq_nil_of_length_eq_zero
  rw [List.length_tail]
  omega

/-- The value of a vector of one limb, if it is below a bound. -/
theorem below?_eq {x : Bits} (h : x.width ≤ 64) (bound : Nat) :
    x.below? bound = if x.toNat < bound then some x.toNat else none := by
  have hlow : x.low64 = x.toNat := by
    rw [low64_eq, Nat.mod_eq_of_lt (Nat.lt_of_lt_of_le x.toNat_lt (Nat.pow_le_pow_right (by decide) h))]
  simp [below?, tail_limbs h, hlow]

end Bits
end SuperH
