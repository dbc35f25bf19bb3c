import Mathlib.Data.Int.Lemmas
import Mathlib.Tactic.LinearCombination
import Mathlib.Tactic.Ring
import SuperH.Proofs.Lift.OnRegisters

/-!
# The quotient of repeated division steps

Rotating a register `x` through T and dividing a remainder `h` by `d`, 32 times over, moves the digits of a quotient
into `x`, one digit a round. A digit is +1 or -1: the divisor is subtracted or added.

* `State.partialRemainder`, `State.divisor`, `State.digits` : the quantities that the rounds work on;
* `State.divide_eq`, `State.round_eq` : what a step and a round make of them;
* `Divided` : what holds after `k` rounds, as `Divided.start` and `Divided.round` show;
* `Divided.quotient` : after 32 rounds and a last rotation `x` holds the quotient.
-/

namespace SuperH.Cpu

open Divide

namespace State

variable (st : State) (d h x : Fin 16)

/-- The remainder with its sign, which is in Q. -/
def partialRemainder : Int := signed (st.flag .q) (st.reg h)

/-- The divisor with its sign, which is in M. -/
def divisor : Int := signed (st.flag .m) (st.reg d)

/-- The digits of the dividend that are left and those of the quotient that are found, with T as the lowest. -/
def digits : Int := 2 * (st.reg x).toNat + (st.flag .t).toNat

/-- The next step subtracts. -/
def nextDigit : Bool := subtracts st

/-- One round. -/
def round : State := (st.rotateThrough x).divide d h

/-! ### After DIV0U -/

theorem partialRemainder_divideUnsigned : st.divideUnsigned.partialRemainder h = (st.reg h).toNat := by
  simp [partialRemainder, divideUnsigned, signed]

theorem divisor_divideUnsigned : st.divideUnsigned.divisor d = (st.reg d).toNat := by
  simp [divisor, divideUnsigned, signed]

theorem flag_divideUnsigned_m : st.divideUnsigned.flag .m = false := by
  simp [divideUnsigned]

theorem flag_divideUnsigned_t : st.divideUnsigned.flag .t = false := by
  simp [divideUnsigned]

theorem nextDigit_divideUnsigned : st.divideUnsigned.nextDigit = true := by
  simp [nextDigit, subtracts, divideUnsigned]

/-! ### Rotations and steps -/

theorem digits_rotateThrough :
    (((st.rotateThrough x).reg x).toNat : Int) + 2 ^ 32 * ((st.rotateThrough x).flag .t).toNat = st.digits x := by
  have hshifted := toNat_shifted st (st.reg x)
  unfold shifted at hshifted
  simp only [rotateThrough, digits, ne_eq, reduceCtorEq, not_false_eq_true, reg_setFlag, reg_setReg, if_true, flag_setFlag]
  omega

variable {st d h x}

theorem reg_rotateThrough {n : Fin 16} (hn : n ≠ x) : (st.rotateThrough x).reg n = st.reg n := by
  simp [rotateThrough, hn]

theorem partialRemainder_rotateThrough (hhx : h ≠ x) : (st.rotateThrough x).partialRemainder h = st.partialRemainder h := by
  simp [partialRemainder, rotateThrough, hhx]

theorem divisor_rotateThrough (hdx : d ≠ x) : (st.rotateThrough x).divisor d = st.divisor d := by
  simp [divisor, rotateThrough, hdx]

theorem nextDigit_rotateThrough : (st.rotateThrough x).nextDigit = st.nextDigit := by
  simp [nextDigit, subtracts, rotateThrough]

theorem reg_divide {n : Fin 16} (hn : n ≠ h) : (st.divide d h).reg n = st.reg n := by
  simp [divide, flags, hn]

theorem flag_divide_m : (st.divide d h).flag .m = st.flag .m := by
  simp [divide, flags]

theorem flag_divide_t : (st.divide d h).flag .t = (st.divide d h).nextDigit := by
  simp [divide, flags, nextDigit, subtracts]

theorem divisor_divide (hdh : d ≠ h) : (st.divide d h).divisor d = st.divisor d := by
  rw [divisor, divisor, flag_divide_m, reg_divide hdh]

/-- A step doubles the remainder, takes T in and brings it closer to zero by the divisor. -/
theorem divide_eq (hrange : InRange (st.partialRemainder h) (st.divisor d)) :
    (st.divide d h).partialRemainder h = 2 * st.partialRemainder h + (st.flag .t).toNat -
      (if st.nextDigit then st.divisor d else -st.divisor d) ∧
    InRange ((st.divide d h).partialRemainder h) (st.divisor d) := by
  obtain ⟨hstep, hrange'⟩ := signed_step st (st.reg h) (st.reg d) hrange
  have hremainder : (st.divide d h).partialRemainder h = exact st (st.reg h) (st.reg d) := by
    rw [← hstep]
    simp [partialRemainder, divide, flags]
  rw [hremainder]
  exact ⟨rfl, hrange'⟩

theorem reg_round {n : Fin 16} (hn : n ≠ h) (hx : n ≠ x) : (st.round d h x).reg n = st.reg n := by
  rw [round, reg_divide hn, reg_rotateThrough hx]

theorem flag_round_m : (st.round d h x).flag .m = st.flag .m := by
  rw [round, flag_divide_m]
  simp [rotateThrough]

theorem divisor_round (hdh : d ≠ h) (hdx : d ≠ x) : (st.round d h x).divisor d = st.divisor d := by
  rw [divisor, divisor, flag_round_m, reg_round hdh hdx]

/-- A round takes the highest digit of the dividend into the remainder and finds a digit of the quotient. -/
theorem round_eq (hdx : d ≠ x) (hhx : h ≠ x) (hrange : InRange (st.partialRemainder h) (st.divisor d)) :
    2 ^ 33 * (st.round d h x).partialRemainder h + (st.round d h x).digits x =
      2 * (2 ^ 33 * st.partialRemainder h + st.digits x) + ((st.round d h x).nextDigit).toNat -
        2 ^ 33 * (if st.nextDigit then st.divisor d else -st.divisor d) ∧
    InRange ((st.round d h x).partialRemainder h) (st.divisor d) := by
  have hrotate := st.digits_rotateThrough x
  rw [← partialRemainder_rotateThrough hhx, ← divisor_rotateThrough hdx] at hrange
  obtain ⟨hstep, hrange'⟩ := divide_eq hrange
  rw [partialRemainder_rotateThrough hhx, divisor_rotateThrough hdx, nextDigit_rotateThrough] at hstep
  rw [divisor_rotateThrough hdx] at hrange'
  have hdigits : (st.round d h x).digits x =
      2 * ((st.rotateThrough x).reg x).toNat + ((st.round d h x).nextDigit).toNat := by
    rw [round, digits, flag_divide_t, reg_divide hhx.symm]
  refine ⟨?_, hrange'⟩
  rw [hdigits]
  show 2 ^ 33 * ((st.rotateThrough x).divide d h).partialRemainder h + _ = _
  rw [hstep]
  omega

end State

/-- What holds after `k` rounds from a state whose T is set just if the first step adds. -/
structure Divided (d h x : Fin 16) (st₀ st : State) (k : Nat) : Prop where
  reg : ∀ n, n ≠ h → n ≠ x → st.reg n = st₀.reg n
  sign : st.flag .m = st₀.flag .m
  range : InRange (st.partialRemainder h) (st.divisor d)
  /-- the sum `a` of the digits times their weights, against the digits as they stand in `x` -/
  digits : ∃ a e : Int, 0 ≤ e ∧ e < 2 ^ k ∧
    2 ^ 33 * st.partialRemainder h + st.digits x =
      2 ^ k * (2 ^ 33 * st₀.partialRemainder h + st₀.digits x) - 2 ^ 33 * (st₀.divisor d * a) + e ∧
    a + st.nextDigit.toNat - 1 = e - 2 ^ k * (st₀.flag .t).toNat

namespace Divided

variable {d h x : Fin 16} {st₀ st : State} {k : Nat}

theorem divisor_eq (hdh : d ≠ h) (hdx : d ≠ x) (hst : Divided d h x st₀ st k) : st.divisor d = st₀.divisor d := by
  rw [State.divisor, State.divisor, hst.sign, hst.reg d hdh hdx]

theorem start (hrange : InRange (st₀.partialRemainder h) (st₀.divisor d)) (ht : st₀.flag .t = !st₀.nextDigit) :
    Divided d h x st₀ st₀ 0 where
  reg _ _ _ := rfl
  sign := rfl
  range := hrange
  digits := by
    refine ⟨0, 0, ?_⟩
    rw [ht]
    cases st₀.nextDigit <;> simp

theorem round (hdh : d ≠ h) (hdx : d ≠ x) (hhx : h ≠ x) (hst : Divided d h x st₀ st k) :
    Divided d h x st₀ (st.round d h x) (k + 1) := by
  obtain ⟨hround, hrange⟩ := State.round_eq hdx hhx hst.range
  obtain ⟨a, e, hpos, hlt, hsum, hdigit⟩ := hst.digits
  refine ⟨fun n hn hx => (State.reg_round hn hx).trans (hst.reg n hn hx), State.flag_round_m.trans hst.sign, ?_, ?_⟩
  · rw [State.divisor_round hdh hdx]
    exact hrange
  · have hle := Bool.toNat_le (st.round d h x).nextDigit
    refine ⟨2 * a + (if st.nextDigit then 1 else -1), 2 * e + (st.round d h x).nextDigit.toNat, ?_, ?_, ?_, ?_⟩
    · omega
    · rw [Int.pow_succ]
      omega
    · rw [hround, hsum, hst.divisor_eq hdh hdx, Int.pow_succ]
      split <;> ring
    · rw [Int.pow_succ]
      cases hnext : st.nextDigit <;> simp only [hnext, Bool.toNat_true, Bool.toNat_false, if_true, if_false, Bool.false_eq_true] at hdigit ⊢ <;> 
        linear_combination 2 * hdigit

/-- A remainder in range fixes the quotient; whether its sign is that of the divisor corrects the last digit. -/
theorem ediv_of_inRange {q m : Bool} {n b : BitVec 32} {dividend a : Int} (hrange : InRange (signed q n) (signed m b))
    (h : dividend = signed q n + signed m b * a) :
    dividend / signed m b = a + (q == m).toNat - 1 + m.toNat := by
  have hn := n.isLt
  have hb := b.isLt
  unfold InRange at hrange
  have hne : signed m b ≠ 0 := by
    intro h0
    rw [h0] at hrange
    omega
  have key : ∀ r c : Int, signed q n = r + signed m b * c → 0 ≤ r → r < (signed m b).natAbs → dividend / signed m b = a + c := by
    intro r c hr h₀ h₁
    refine ((Int.ediv_emod_unique'' hne (r := r)).2 ⟨?_, h₀, ?_⟩).1
    · rw [h, hr]
      ring
    · rwa [Int.abs_eq_natAbs]
  rw [natAbs_signed] at hrange key
  unfold signed at hrange key ⊢
  cases q <;> cases m <;> simp only [Bool.toNat_true, Bool.toNat_false, BEq.rfl, Bool.false_beq, Bool.true_beq, Bool.not_true,
      if_true, if_false, Bool.false_eq_true] at hrange key ⊢
  · have h := key n.toNat 0 (by omega) (by omega) (by omega)
    omega
  · have h := key n.toNat 0 (by omega) (by omega) (by omega)
    omega
  · have h := key (n.toNat - 2 ^ 32 + b.toNat) (-1) (by omega) (by omega) (by omega)
    omega
  · have h := key (n.toNat - b.toNat) 1 (by omega) (by omega) (by omega)
    omega

/-- Any number of rounds. -/
theorem rounds (hdh : d ≠ h) (hdx : d ≠ x) (hhx : h ≠ x) (hrange : InRange (st₀.partialRemainder h) (st₀.divisor d))
    (ht : st₀.flag .t = !st₀.nextDigit) (k : Nat) : Divided d h x st₀ ((·.round d h x)^[k] st₀) k := by
  induction k with
  | zero => exact start hrange ht
  | succ k ih =>
    rw [Function.iterate_succ_apply']
    exact ih.round hdh hdx hhx

/-- After 32 rounds and a last rotation, `x` holds the quotient of the dividend, rounded down for a positive divisor and
one too small for a negative one, and modulo `2 ^ 32`: T says whether it is below zero. -/
theorem quotient (hdh : d ≠ h) (hdx : d ≠ x) (hst : Divided d h x st₀ st 32) :
    (((st.rotateThrough x).reg x).toNat : Int) =
      (2 ^ 32 * st₀.partialRemainder h + (st₀.reg x).toNat) / st₀.divisor d - (st₀.flag .m).toNat +
        2 ^ 32 * (st₀.flag .t).toNat ∧
    (st.rotateThrough x).flag .t = st₀.flag .t := by
  obtain ⟨a, e, hpos, hlt, hsum, hdigit⟩ := hst.digits
  have hrange := hst.range
  rw [hst.divisor_eq hdh hdx] at hrange
  have hrotate := st.digits_rotateThrough x
  have hx := ((st.rotateThrough x).reg x).isLt
  have hx₀ : st₀.digits x = 2 * (st₀.reg x).toNat + (st₀.flag .t).toNat := rfl
  have ht := Bool.toNat_le ((st.rotateThrough x).flag .t)
  have ht₀ := Bool.toNat_le (st₀.flag .t)
  have hdividend : 2 ^ 32 * st₀.partialRemainder h + (st₀.reg x).toNat = st.partialRemainder h + st₀.divisor d * a := by
    generalize st₀.divisor d * a = p at hsum ⊢
    omega
  have hquotient : (2 ^ 32 * st₀.partialRemainder h + (st₀.reg x).toNat) / st₀.divisor d =
      a + st.nextDigit.toNat - 1 + (st₀.flag .m).toNat := by
    rw [State.nextDigit, subtracts, hst.sign]
    exact ediv_of_inRange hrange hdividend
  have hvalue : st.digits x = 2 ^ 32 * (st₀.flag .t).toNat + e := by
    generalize st₀.divisor d * a = p at hsum hdividend
    omega
  have hcarry : ((st.rotateThrough x).flag .t).toNat = (st₀.flag .t).toNat := by omega
  refine ⟨by omega, ?_⟩
  revert hcarry
  cases (st.rotateThrough x).flag .t <;> cases st₀.flag .t <;> simp

end Divided

end SuperH.Cpu
