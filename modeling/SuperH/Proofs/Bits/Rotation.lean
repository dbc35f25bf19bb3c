import Mathlib.Logic.Function.Iterate

/-!
# Rotations

* `getLsbD_rotateRight_mod`, `getLsbD_rotateLeft_mod` : a rotation as a shift of the indices modulo the width;
* `rotateRight_rotateLeft` : a rotation to the right undoes one to the left;
* `rotateLeft_rotateLeft`, `rotateRight_rotateRight` : the places of rotations one after the other add up;
* `iterate_rotateLeft`, `iterate_rotateRight` : so do those of rotations by one place.
-/

namespace SuperH

variable {w : Nat} (x : BitVec w) (a b k : Nat)

/-! ## Places of the bits -/

variable {i : Nat} (hi : i < w)

include hi

theorem getLsbD_rotateRight_mod : (x.rotateRight k).getLsbD i = x.getLsbD ((i + k) % w) := by
  have hk : k % w < w := Nat.mod_lt _ (by omega)
  rw [BitVec.getLsbD_rotateRight, ← Nat.add_mod_mod]
  by_cases hlow : i < w - k % w
  · have hsame : (i + k % w) % w = i + k % w := Nat.mod_eq_of_lt (by omega)
    rw [decide_eq_true hlow, cond_true, hsame, Nat.add_comm]
  · have hwrap : (i + k % w) % w = i - (w - k % w) := by
      rw [Nat.mod_eq_sub_mod (by omega), Nat.mod_eq_of_lt (by omega)]
      omega
    rw [decide_eq_false hlow, cond_false, decide_eq_true hi, Bool.true_and, hwrap]

theorem getLsbD_rotateLeft_mod : (x.rotateLeft k).getLsbD ((i + k) % w) = x.getLsbD i := by
  have hk : k % w < w := Nat.mod_lt _ (by omega)
  rw [BitVec.getLsbD_rotateLeft, ← Nat.add_mod_mod]
  by_cases hlow : i < w - k % w
  · have hsame : (i + k % w) % w = i + k % w := Nat.mod_eq_of_lt (by omega)
    rw [hsame, decide_eq_false (by omega), cond_false, decide_eq_true (by omega), Bool.true_and,
      Nat.add_sub_cancel]
  · have hwrap : (i + k % w) % w = i - (w - k % w) := by
      rw [Nat.mod_eq_sub_mod (by omega), Nat.mod_eq_of_lt (by omega)]
      omega
    rw [hwrap, decide_eq_true (by omega), cond_true, Nat.add_sub_cancel' (by omega)]

omit hi

/-! ## Rotations one after the other -/

theorem rotateRight_rotateLeft : (x.rotateLeft k).rotateRight k = x := by
  apply BitVec.eq_of_getLsbD_eq
  intro i hi
  rw [getLsbD_rotateRight_mod _ _ hi, getLsbD_rotateLeft_mod _ _ hi]

theorem rotateRight_rotateRight : (x.rotateRight a).rotateRight b = x.rotateRight (a + b) := by
  apply BitVec.eq_of_getLsbD_eq
  intro i hi
  rw [getLsbD_rotateRight_mod _ _ hi, getLsbD_rotateRight_mod _ _ hi, getLsbD_rotateRight_mod _ _ (Nat.mod_lt _ (by omega)),
    Nat.mod_add_mod, Nat.add_assoc, Nat.add_comm b]

/-- Rotations by a multiple of the width change nothing. -/
theorem rotateRight_mul : x.rotateRight (w * k) = x := by
  apply BitVec.eq_of_getLsbD_eq
  intro i hi
  rw [getLsbD_rotateRight_mod _ _ hi, Nat.add_mul_mod_self_left, Nat.mod_eq_of_lt hi]

theorem rotateRight_injective : Function.Injective fun x : BitVec w => x.rotateRight k := by
  intro x y h
  obtain rfl | hw := Nat.eq_zero_or_pos w
  · exact BitVec.eq_of_zero_length rfl
  · have hround : k + (w * k - k) = w * k := Nat.add_sub_cancel' (Nat.le_mul_of_pos_left k hw)
    have hsame : (x.rotateRight k).rotateRight (w * k - k) = (y.rotateRight k).rotateRight (w * k - k) :=
      congrArg (BitVec.rotateRight · _) h
    rwa [rotateRight_rotateRight, rotateRight_rotateRight, hround, rotateRight_mul, rotateRight_mul] at hsame

theorem rotateLeft_rotateLeft : (x.rotateLeft a).rotateLeft b = x.rotateLeft (a + b) := by
  apply rotateRight_injective (a + b)
  show ((x.rotateLeft a).rotateLeft b).rotateRight (a + b) = (x.rotateLeft (a + b)).rotateRight (a + b)
  rw [Nat.add_comm, ← rotateRight_rotateRight, rotateRight_rotateLeft, rotateRight_rotateLeft, rotateRight_rotateLeft]

/-! ## Rotations by one place -/

theorem iterate_rotateLeft : (fun x : BitVec w => x.rotateLeft 1)^[k] x = x.rotateLeft k := by
  induction k with
  | zero => exact (rotateRight_rotateLeft x 0).symm.trans (rotateRight_mul _ 0)
  | succ k ih => rw [Function.iterate_succ_apply', ih, rotateLeft_rotateLeft]

theorem iterate_rotateRight : (fun x : BitVec w => x.rotateRight 1)^[k] x = x.rotateRight k := by
  induction k with
  | zero => exact (rotateRight_mul x 0).symm
  | succ k ih => rw [Function.iterate_succ_apply', ih, rotateRight_rotateRight]

end SuperH
