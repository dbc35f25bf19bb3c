import SuperH.Bits.Bytes

/-!
# Numbers and their limbs

A limb is a digit of base `2 ^ 64`; a list of limbs has the least significant one first.

* `value ls` : the number that `ls` stands for; `digits n v` : the low `n` limbs of `v`. Both go
  limb by limb, so their time grows with the square of the length;
* `toNat`, `ofNat` : the same by halves, in time that is linear but for a logarithm
  (`toNat_eq_value`, `ofNat_eq_digits`).
-/

namespace SuperH.Limbs

/-! ## Limb by limb -/

/-- The number that a list of limbs stands for. -/
def value : List Nat → Nat
  | [] => 0
  | l :: ls => l + 2 ^ 64 * value ls

/-- The low `n` limbs of a number. -/
def digits : Nat → Nat → List Nat
  | 0, _ => []
  | n + 1, v => v % 2 ^ 64 :: digits n (v / 2 ^ 64)

def low (v : Nat) : Nat := if v < 2 ^ 64 then v else v % 2 ^ 64

theorem low_eq (v : Nat) : low v = v % 2 ^ 64 := by
  unfold low
  split
  · rw [Nat.mod_eq_of_lt ‹_›]
  · rfl

theorem two_pow_limbs_succ (n : Nat) : 2 ^ (64 * (n + 1)) = 2 ^ 64 * 2 ^ (64 * n) := by
  rw [← Nat.pow_add]; congr 1; omega

theorem length_digits (n v : Nat) : (digits n v).length = n := by
  induction n generalizing v with
  | zero => rfl
  | succ n ih => rw [digits, List.length_cons, ih]

theorem digits_zero_right (n : Nat) : digits n 0 = List.replicate n 0 := by
  induction n with
  | zero => rfl
  | succ n ih => rw [digits, Nat.zero_mod, Nat.zero_div, ih, List.replicate_succ]

/-- The low limbs and those above them. -/
theorem digits_add (m n v : Nat) :
    digits (m + n) v = digits m v ++ digits n (v / 2 ^ (64 * m)) := by
  induction m generalizing v with
  | zero => simp [digits]
  | succ m ih =>
    rw [Nat.succ_add, digits, ih, digits, Nat.div_div_eq_div_mul, ← Nat.pow_add, List.cons_append,
      Nat.mul_succ, Nat.add_comm 64]

/-- The low limbs depend on the low bits only. -/
theorem digits_mod (m v : Nat) : digits m (v % 2 ^ (64 * m)) = digits m v := by
  induction m generalizing v with
  | zero => rfl
  | succ m ih =>
    rw [digits, digits, two_pow_limbs_succ, Nat.mod_mul_right_mod, Nat.mod_mul_right_div_self, ih]

/-- The number of the low limbs is the number modulo their range. -/
theorem value_digits (n v : Nat) : value (digits n v) = v % 2 ^ (64 * n) := by
  induction n generalizing v with
  | zero => simp [digits, value, Nat.mod_one]
  | succ n ih => rw [digits, value, ih, two_pow_limbs_succ, Nat.mod_mul]

/-! ## Joining halves -/

/-- The number whose digits of base `2 ^ k` are given. -/
def valueIn (k : Nat) : List Nat → Nat
  | [] => 0
  | l :: ls => l + 2 ^ k * valueIn k ls

/-- Joins neighbouring digits of base `2 ^ k` to digits of base `2 ^ (2 * k)`. -/
def joinPairs (k : Nat) : List Nat → List Nat
  | a :: b :: ls => (a + b <<< k) :: joinPairs k ls
  | ls => ls

theorem valueIn_joinPairs (k : Nat) (ls : List Nat) :
    valueIn (2 * k) (joinPairs k ls) = valueIn k ls := by
  fun_induction joinPairs k ls with
  | case1 a b ls ih =>
    rw [valueIn, ih, valueIn, valueIn, Nat.shiftLeft_eq, Nat.mul_comm b, Nat.two_mul, Nat.pow_add,
      Nat.mul_add, Nat.mul_assoc, Nat.add_assoc]
  | case2 ls h =>
    match ls with
    | [] => rfl
    | [a] => rfl
    | a :: b :: ls => exact absurd rfl (h a b ls)

/-- The number whose digits of base `2 ^ k` are given, of which neighbours are joined until one is
left. Each joining halves their number, so `fuel` joinings are enough for so many digits. -/
def join : Nat → Nat → List Nat → Nat
  | _, _, [] => 0
  | _, _, [l] => l
  | 0, k, ls => valueIn k ls
  | fuel + 1, k, ls => join fuel (2 * k) (joinPairs k ls)

theorem join_eq (fuel k : Nat) (ls : List Nat) : join fuel k ls = valueIn k ls := by
  fun_induction join fuel k ls with
  | case1 => rfl
  | case2 => simp [valueIn]
  | case3 => rfl
  | case4 fuel k ls _ _ ih => rw [ih, valueIn_joinPairs]

/-- The number that a list of limbs stands for. -/
def toNat (ls : List Nat) : Nat := join ls.length 64 ls

theorem toNat_eq_value (ls : List Nat) : toNat ls = value ls := by
  rw [toNat, join_eq]
  induction ls with
  | nil => rfl
  | cons l ls ih => rw [valueIn, value, ih]

/-! ## Splitting into halves -/

def lowBits (k v : Nat) : Nat := v &&& (2 ^ k - 1)

theorem lowBits_eq (k v : Nat) : lowBits k v = v % 2 ^ k := Nat.and_two_pow_sub_one_eq_mod ..

/-- The low `2 ^ level` limbs of a number in front of others. Zero is not split any further. -/
def spread : Nat → Nat → List Nat → List Nat
  | 0, v, rest => low v :: rest
  | level + 1, v, rest =>
    let k := 64 * 2 ^ level
    if v = 0 then List.replicate (2 ^ (level + 1)) 0 ++ rest
    else spread level (lowBits k v) (spread level (v >>> k) rest)

theorem spread_eq (level v : Nat) (rest : List Nat) :
    spread level v rest = digits (2 ^ level) v ++ rest := by
  induction level generalizing v rest with
  | zero => rw [spread, low_eq]; rfl
  | succ level ih =>
    rw [spread]
    split
    · rw [‹v = 0›, digits_zero_right]
    · rw [ih, ih, lowBits_eq, digits_mod, Nat.shiftRight_eq_div_pow, ← List.append_assoc,
        ← digits_add, Nat.pow_succ, Nat.mul_two]

/-- How often `n` limbs are split into halves. -/
def levels (n : Nat) : Nat := if n ≤ 1 then 0 else (n - 1).log2 + 1

theorem le_two_pow_levels (n : Nat) : n ≤ 2 ^ levels n := by
  unfold levels
  split
  · simpa using ‹n ≤ 1›
  · have := Nat.lt_log2_self (n := n - 1)
    omega

/-- The low `n` limbs of a number. -/
def ofNat (n v : Nat) : List Nat := (spread (levels n) v []).take n

theorem ofNat_eq_digits (n v : Nat) : ofNat n v = digits n v := by
  obtain ⟨k, hk⟩ := Nat.exists_eq_add_of_le (le_two_pow_levels n)
  rw [ofNat, spread_eq, List.append_nil, hk, digits_add, List.take_left' (length_digits ..)]

end SuperH.Limbs
