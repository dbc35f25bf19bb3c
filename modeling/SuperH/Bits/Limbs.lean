import SuperH.Bits.Digits

/-!
# Limbs

A natural number is held as a list of 64-bit limbs, least significant limb first.

* `count w` : how many limbs hold `w` bits; `trim n w ls` : `n` limbs cut to `w` live bits
  (`length_trim`, `lt_of_mem_trim`, `value_trim_lt`);
* `ofBytes n bs` : the first `n` limbs of a byte image;
* `add`, `sub` : the carry and borrow loops, one limb at a time;
* `cmp` : the order of the values of two equally long lists.
-/

namespace SuperH.Limbs

/-- The number of limbs that hold `width` bits. -/
def count (width : Nat) : Nat := (width + 63) / 64

theorem le_count (width : Nat) : width ≤ 64 * count width := by
  unfold count; omega

theorem count_pos {width : Nat} (h : 0 < width) : 0 < count width := by
  unfold count; omega

/-! ## Cutting to a width -/

/-- A limb of which only the low `width` bits live. -/
def cut (width limb : Nat) : Nat := if 64 ≤ width then low limb else limb % 2 ^ width

theorem cut_eq (width limb : Nat) : cut width limb = limb % 2 ^ min width 64 := by
  unfold cut
  split
  · rw [low_eq, Nat.min_eq_right ‹_›]
  · rw [Nat.min_eq_left (by omega)]

/-- The first `n` limbs, of which only the low `width` bits live; a missing limb is zero. -/
def trim : Nat → Nat → List Nat → List Nat
  | 0, _, _ => []
  | n + 1, width, ls => cut width (ls.headD 0) :: trim n (width - 64) ls.tail

theorem length_trim (n width : Nat) (ls : List Nat) : (trim n width ls).length = n := by
  induction n generalizing width ls with
  | zero => rfl
  | succ n ih => simp [trim, ih]

theorem lt_of_mem_trim {n width : Nat} {ls : List Nat} :
    ∀ l ∈ trim n width ls, l < 2 ^ 64 := by
  induction n generalizing width ls with
  | zero => simp [trim]
  | succ n ih =>
    intro l hl
    rcases List.mem_cons.1 hl with rfl | hl
    · rw [cut_eq]
      exact Nat.lt_of_lt_of_le (Nat.mod_lt _ (Nat.two_pow_pos _))
        (Nat.pow_le_pow_right (by decide) (Nat.min_le_right _ _))
    · exact ih l hl

/-- No bit past the width is set. -/
theorem value_trim_lt (n width : Nat) (ls : List Nat) : value (trim n width ls) < 2 ^ width := by
  induction n generalizing width ls with
  | zero => exact Nat.two_pow_pos _
  | succ n ih =>
    have head : ls.headD 0 % 2 ^ min width 64 < 2 ^ min width 64 := Nat.mod_lt _ (Nat.two_pow_pos _)
    have rest := ih (width - 64) ls.tail
    rcases Nat.le_total width 64 with h | h
    · rw [Nat.sub_eq_zero_of_le h, Nat.pow_zero, Nat.lt_one_iff] at rest
      rw [Nat.min_eq_left h] at head
      simpa [trim, cut_eq, value, Nat.sub_eq_zero_of_le h, rest, Nat.min_eq_left h] using head
    · rw [Nat.min_eq_right h] at head
      have split : 2 ^ width = 2 ^ 64 * 2 ^ (width - 64) := by
        rw [← Nat.pow_add]; congr 1; omega
      have step : 2 ^ 64 * (value (trim n (width - 64) ls.tail) + 1) ≤ 2 ^ 64 * 2 ^ (width - 64) :=
        Nat.mul_le_mul_left _ rest
      rw [split]
      simp only [trim, cut_eq, value, Nat.min_eq_right h]
      omega

/-! ## Images -/

/-- The low `n` limbs of a byte image, eight bytes to a limb. -/
def ofBytes : Nat → List UInt8 → List Nat
  | 0, _ => []
  | n + 1, bs => ofLeBytes (bs.take 8) :: ofBytes n (bs.drop 8)

/-! ## Arithmetic -/

/-- A sum modulo `2 ^ 64`, and whether it left that range. -/
def overflowingAdd (a b : Nat) : Nat × Bool :=
  (low (a + b), decide (2 ^ 64 ≤ a + b))

/-- A difference modulo `2 ^ 64`, and whether it went below zero. -/
def overflowingSub (a b : Nat) : Nat × Bool :=
  if a < b then (low (a + 2 ^ 64 - b), true) else (low (a - b), false)

/-- The sum of two equally long lists and a carry, kept to their length. -/
def add : Bool → List Nat → List Nat → List Nat
  | carry, a :: as, b :: bs =>
    let (s, c₁) := overflowingAdd a b
    let (s, c₂) := overflowingAdd s carry.toNat
    s :: add (c₁ || c₂) as bs
  | _, _, _ => []

/-- The difference of two equally long lists and a borrow, kept to their length. -/
def sub : Bool → List Nat → List Nat → List Nat
  | borrow, a :: as, b :: bs =>
    let (d, b₁) := overflowingSub a b
    let (d, b₂) := overflowingSub d borrow.toNat
    d :: sub (b₁ || b₂) as bs
  | _, _, _ => []

/-- The order of two equally long lists: the highest limb that differs decides. -/
def cmp : List Nat → List Nat → Ordering
  | a :: as, b :: bs => (cmp as bs).then (compare a b)
  | _, _ => .eq

end SuperH.Limbs
