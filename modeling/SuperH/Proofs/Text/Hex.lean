import Mathlib.Data.List.TakeWhile
import SuperH.Proofs.Bits.Operations
import SuperH.Text.Hex

/-!
# Numbers as digits

* `exists_of_mem_toDigits` : what a number is written with; `toDigits_inj` : digits of a base up to sixteen determine the
  number;
* `hexDigits_append` : digits that are filled up to a fixed number continue those of the higher part;
* `Bits.limbDigits_reverse`, `Bits.text_eq` : limb by limb, the digits are those of the whole value, so that the text
  determines it (`Bits.toNat_inj_of_text`).
-/

namespace SuperH

/-! ## Digits of one base -/

theorem digitChar_inj {m n : Nat} (hm : m < 16) (hn : n < 16) (h : m.digitChar = n.digitChar) : m = n := by
  have key : ∀ m < 16, ∀ n < 16, m.digitChar = n.digitChar → m = n := by decide
  exact key m hm n hn h

theorem toDigits_inj {b : Nat} (hb : 1 < b) (hb' : b ≤ 16) {m n : Nat} (h : Nat.toDigits b m = Nat.toDigits b n) : m = n := by
  induction m using Nat.strongRecOn generalizing n with
  | ind m ih =>
    rcases Nat.lt_or_ge m b with hm | hm <;> rcases Nat.lt_or_ge n b with hn | hn
    · rw [Nat.toDigits_of_lt_base hm, Nat.toDigits_of_lt_base hn] at h
      exact digitChar_inj (by omega) (by omega) (List.singleton_inj.1 h)
    · rw [Nat.toDigits_of_lt_base hm, Nat.toDigits_of_base_le hb hn] at h
      have hlen := congrArg List.length h
      simp at hlen
    · rw [Nat.toDigits_of_base_le hb hm, Nat.toDigits_of_lt_base hn] at h
      have hlen := congrArg List.length h
      simp at hlen
    · rw [Nat.toDigits_of_base_le hb hm, Nat.toDigits_of_base_le hb hn] at h
      obtain ⟨hhigh, hlow⟩ := List.append_inj' h rfl
      have hdiv : m / b = n / b := ih (m / b) (Nat.div_lt_self (by omega) hb) hhigh
      have hmod : m % b = n % b := by
        have hlt (k : Nat) : k % b < 16 := Nat.lt_of_lt_of_le (Nat.mod_lt _ (by omega)) hb'
        exact digitChar_inj (hlt m) (hlt n) (List.singleton_inj.1 hlow)
      rw [← Nat.div_add_mod m b, hdiv, hmod, Nat.div_add_mod]

theorem exists_of_mem_toDigits {b : Nat} (hb : 1 < b) {n : Nat} {c : Char} (hc : c ∈ Nat.toDigits b n) :
    ∃ d < b, c = d.digitChar := by
  induction n using Nat.strongRecOn with
  | ind n ih =>
    rcases Nat.lt_or_ge n b with hn | hn
    · rw [Nat.toDigits_of_lt_base hn] at hc
      exact ⟨n, hn, List.mem_singleton.1 hc⟩
    · rw [Nat.toDigits_of_base_le hb hn] at hc
      rcases List.mem_append.1 hc with hhigh | hlow
      · exact ih (n / b) (Nat.div_lt_self (by omega) hb) hhigh
      · exact ⟨n % b, Nat.mod_lt _ (by omega), List.mem_singleton.1 hlow⟩

theorem toString_nat_inj {m n : Nat} (h : toString m = toString n) : m = n := by
  have hdigits := congrArg String.toList h
  rw [Nat.toString_eq_repr, Nat.toString_eq_repr, Nat.toList_repr, Nat.toList_repr] at hdigits
  exact toDigits_inj (by decide) (by decide) hdigits

/-! ## Digits filled up with zeros -/

theorem hexDigitsPadded_one {d : Nat} (hd : d < 16) : hexDigitsPadded 1 d = hexDigits d := by
  simp [hexDigitsPadded, hexDigits, Nat.toDigits_of_lt_base hd]

/-- The last digit stands apart. -/
theorem hexDigitsPadded_succ (k n : Nat) :
    hexDigitsPadded (k + 2) n = hexDigitsPadded (k + 1) (n / 16) ++ hexDigits (n % 16) := by
  have hlow : hexDigits (n % 16) = [(n % 16).digitChar] := Nat.toDigits_of_lt_base (Nat.mod_lt _ (by decide))
  rw [hlow, hexDigitsPadded, hexDigitsPadded]
  rcases Nat.lt_or_ge n 16 with hn | hn
  · have hzero : hexDigits (n / 16) = ['0'] := by
      rw [Nat.div_eq_of_lt hn]
      rfl
    have hdigit : hexDigits n = [(n % 16).digitChar] := by
      rw [Nat.mod_eq_of_lt hn]
      exact Nat.toDigits_of_lt_base hn
    simp [hzero, hdigit, List.replicate_succ']
  · have hsplit : hexDigits n = hexDigits (n / 16) ++ [(n % 16).digitChar] := Nat.toDigits_of_base_le (by decide) hn
    have hzeros (len : Nat) : k + 2 - (len + 1) = k + 1 - len := Nat.add_sub_add_right (k + 1) 1 len
    rw [hsplit, List.length_append, List.length_singleton, hzeros, List.append_assoc]

theorem hexDigits_append {v : Nat} (hv : 0 < v) (k : Nat) {n : Nat} (hn : n < 16 ^ (k + 1)) :
    hexDigits v ++ hexDigitsPadded (k + 1) n = hexDigits (16 ^ (k + 1) * v + n) := by
  have hstep {u d : Nat} (hu : 0 < u) (hd : d < 16) : hexDigits u ++ hexDigits d = hexDigits (16 * u + d) :=
    Nat.toDigits_append_toDigits (by decide) hu hd
  induction k generalizing n with
  | zero => rw [hexDigitsPadded_one hn, hstep hv hn, Nat.zero_add, Nat.pow_one]
  | succ k ih =>
    have hhigh : n / 16 < 16 ^ (k + 1) := by
      rw [Nat.pow_succ] at hn
      exact Nat.div_lt_of_lt_mul (by omega)
    have hpos : 0 < 16 ^ (k + 1) * v + n / 16 := Nat.add_pos_left (Nat.mul_pos (Nat.pow_pos (by decide)) hv) _
    rw [hexDigitsPadded_succ, ← List.append_assoc, ih hhigh, hstep hpos (Nat.mod_lt _ (by decide))]
    have hpow : 16 ^ (k + 1 + 1) * v = 16 * (16 ^ (k + 1) * v) := by
      rw [Nat.pow_succ 16 (k + 1), Nat.mul_comm (16 ^ (k + 1)) 16, Nat.mul_assoc]
    rw [hpow, Nat.mul_add, Nat.add_assoc, Nat.div_add_mod]

namespace Bits

/-! ## Limbs -/

/-- One more limb at the low end. -/
theorem limbDigits_append (ls : List Nat) (l : Nat) :
    limbDigits (ls ++ [l]) = if ls.all (· == 0) then hexDigits l else limbDigits ls ++ hexDigitsPadded 16 l := by
  unfold limbDigits
  rw [List.dropWhile_append]
  by_cases hzero : ls.all (· == 0)
  · have hnone : ls.dropWhile (· == 0) = [] := List.dropWhile_eq_nil_iff.2 (List.all_eq_true.1 hzero)
    rw [hnone, if_pos List.isEmpty_nil, if_pos hzero]
    by_cases hl : l = 0
    · subst hl
      rfl
    · rw [List.dropWhile_cons_of_neg (by simpa using hl)]
      exact List.append_nil _
  · obtain ⟨top, rest, htop⟩ : ∃ top rest, ls.dropWhile (· == 0) = top :: rest := by
      refine List.ne_nil_iff_exists_cons.1 fun hnone => hzero ?_
      exact List.all_eq_true.2 (List.dropWhile_eq_nil_iff.1 hnone)
    rw [if_neg hzero, htop]
    simp

theorem limbDigits_reverse {ls : List Nat} (h : ∀ l ∈ ls, l < 2 ^ 64) :
    limbDigits ls.reverse = hexDigits (Limbs.value ls) := by
  induction ls with
  | nil => rfl
  | cons l ls ih =>
    rw [List.reverse_cons, limbDigits_append, List.all_reverse, Limbs.all_zero, Limbs.value]
    by_cases hvalue : Limbs.value ls = 0
    · rw [if_pos (decide_eq_true hvalue), hvalue, Nat.mul_zero, Nat.add_zero]
    · have hlimb : 2 ^ 64 = 16 ^ (15 + 1) := by decide
      have hl : l < 16 ^ (15 + 1) := h l List.mem_cons_self
      rw [if_neg (by simpa using hvalue), ih fun x hx => h x (List.mem_cons_of_mem _ hx),
        hexDigits_append (Nat.pos_of_ne_zero hvalue) 15 hl, hlimb, Nat.add_comm]

/-- The text is that of the whole value. -/
theorem text_eq (x : Bits) : x.text = String.ofList ('0' :: 'x' :: hexDigits x.toNat) := by
  rw [text, limbDigits_reverse x.limb_lt, toNat_eq_value]

theorem toNat_inj_of_text {x y : Bits} (h : x.text = y.text) : x.toNat = y.toNat := by
  rw [text_eq, text_eq] at h
  have hdigits : hexDigits x.toNat = hexDigits y.toNat := by simpa using congrArg String.toList h
  exact toDigits_inj (by decide) (by decide) hdigits

end Bits
end SuperH
