import SuperH.Bits.Power

/-!
# Byte images

A number's bytes, least significant byte first: `leBytes n v` are its low `n` bytes, and
`ofLeBytes bs` is the number with the bytes `bs`.
-/

namespace SuperH

/-- The low `n` bytes of a number, least significant byte first. -/
def leBytes : Nat → Nat → List UInt8
  | 0, _ => []
  | n + 1, v => UInt8.ofNat v :: leBytes n (v / 2 ^ 8)

/-- The number whose bytes are `bs`, least significant byte first. -/
def ofLeBytes : List UInt8 → Nat
  | [] => 0
  | b :: bs => b.toNat + 2 ^ 8 * ofLeBytes bs

@[simp] theorem length_leBytes (n v : Nat) : (leBytes n v).length = n := by
  induction n generalizing v with
  | zero => rfl
  | succ n ih => simp [leBytes, ih]

theorem ofLeBytes_lt (bs : List UInt8) : ofLeBytes bs < 2 ^ (8 * bs.length) := by
  induction bs with
  | nil => decide
  | cons b bs ih =>
    have hb := b.toNat_lt
    have split : 2 ^ (8 * (b :: bs).length) = 2 ^ 8 * 2 ^ (8 * bs.length) := by
      rw [← Nat.pow_add, List.length_cons]; congr 1; omega
    rw [split, ofLeBytes]
    omega

/-- The bytes of the number of a byte list are the list. -/
theorem leBytes_ofLeBytes (bs : List UInt8) : leBytes bs.length (ofLeBytes bs) = bs := by
  induction bs with
  | nil => rfl
  | cons b bs ih =>
    have hb := b.toNat_lt
    have hdiv : (b.toNat + 2 ^ 8 * ofLeBytes bs) / 2 ^ 8 = ofLeBytes bs := by omega
    have hlow : UInt8.ofNat (b.toNat + 2 ^ 8 * ofLeBytes bs) = b := by
      apply UInt8.toNat_inj.1
      rw [UInt8.toNat_ofNat']
      omega
    rw [List.length_cons, ofLeBytes, leBytes, hdiv, ih, hlow]

/-- The number of the low bytes is the number modulo their range. -/
theorem ofLeBytes_leBytes (n v : Nat) : ofLeBytes (leBytes n v) = v % 2 ^ (8 * n) := by
  induction n generalizing v with
  | zero => simp [leBytes, ofLeBytes, Nat.mod_one]
  | succ n ih =>
    rw [leBytes, ofLeBytes, ih, UInt8.toNat_ofNat', Nat.mul_add, Nat.mul_one, Nat.pow_add,
      Nat.mul_comm (2 ^ (8 * n)), Nat.mod_mul]

end SuperH
