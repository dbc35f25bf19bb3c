import SuperH.Memory.Linear
import SuperH.Proofs.Lift.Quotient
import SuperH.Proofs.Session.Forward

/-!
# Division in place

A number of 32 bits divided by one of 16, whose quotient has 16 bits. The divisor is moved up by half a word, so that each
step finds a digit, and ROTCL is not needed between the steps: T goes into the register of the remainder with the next one.

* `DividedInPlace` : what holds after `k` steps, as `DividedInPlace.start` and `DividedInPlace.divide` show: the remainder has
  the bits of the quotient so far below it;
* `DividedInPlace.quotient` : they never change which bit is next, and the last rotation completes the quotient;
* `shortDivision`, `short_division` : the program, and that it divides.
-/

namespace SuperH

open Cpu

namespace Cpu

open Divide

/-- What holds after `k` steps from a state in which T is clear and the first step subtracts. -/
structure DividedInPlace (d x : Fin 16) (st₀ st : State) (k : Nat) : Prop where
  reg : st.reg d = st₀.reg d
  sign : st.flag .m = st₀.flag .m
  range : InRange (st.partialRemainder x) (st.divisor d)
  /-- the sum `a` of the digits times their weights, and the bits `e` of the quotient that are in `x` -/
  bits : ∃ a e : Int, 0 ≤ e ∧ e < 2 ^ k ∧
    st.partialRemainder x = 2 ^ k * st₀.partialRemainder x - st₀.divisor d * a + e ∧
    2 * e + (st.flag .t).toNat = a + st.nextDigit.toNat - 1

namespace DividedInPlace

variable {d x : Fin 16} {st₀ st : State} {k : Nat}

theorem divisor_eq (hst : DividedInPlace d x st₀ st k) : st.divisor d = st₀.divisor d := by
  rw [State.divisor, State.divisor, hst.sign, hst.reg]

theorem start (hrange : InRange (st₀.partialRemainder x) (st₀.divisor d)) (ht : st₀.flag .t = false)
    (hnext : st₀.nextDigit = true) : DividedInPlace d x st₀ st₀ 0 where
  reg := rfl
  sign := rfl
  range := hrange
  bits := ⟨0, 0, by simp [ht, hnext]⟩

/-- A step moves T in and finds the next bit. -/
theorem divide (hdx : d ≠ x) (hst : DividedInPlace d x st₀ st k) : DividedInPlace d x st₀ (st.divide d x) (k + 1) := by
  obtain ⟨hstep, hrange⟩ := State.divide_eq hst.range
  obtain ⟨a, e, hpos, hlt, hsum, hdigit⟩ := hst.bits
  refine ⟨(State.reg_divide hdx).trans hst.reg, State.flag_divide_m.trans hst.sign, ?_, ?_⟩
  · rw [State.divisor_divide hdx]
    exact hrange
  · have ht := Bool.toNat_le (st.flag .t)
    refine ⟨2 * a + (if st.nextDigit then 1 else -1), 2 * e + (st.flag .t).toNat, ?_, ?_, ?_, ?_⟩
    · omega
    · rw [Int.pow_succ]
      omega
    · rw [hstep, hsum, hst.divisor_eq, Int.pow_succ]
      split <;> ring
    · have hweight : (if st.nextDigit then 1 else -1 : Int) = 2 * st.nextDigit.toNat - 1 := by cases st.nextDigit <;> rfl
      rw [State.flag_divide_t, hweight]
      omega

/-- Any number of steps. -/
theorem steps (hst : DividedInPlace d x st₀ st₀ 0) (hdx : d ≠ x) (k : Nat) :
    DividedInPlace d x st₀ ((·.divide d x)^[k] st₀) k := by
  induction k with
  | zero => exact hst
  | succ k ih =>
    rw [Function.iterate_succ_apply']
    exact ih.divide hdx

/-- The bits below the remainder are no more than the places that the divisor was moved up, so they leave the quotient as it is. -/
theorem ediv_eq (hst : DividedInPlace d x st₀ st k) (hm : st₀.flag .m = false) {D : Int}
    (hdivisor : st₀.divisor d = 2 ^ k * D) :
    ∃ c e : Int, 0 ≤ e ∧ e < 2 ^ k ∧ st.partialRemainder x = 2 ^ k * c + e ∧
      st₀.partialRemainder x / D = 2 * e + (st.flag .t).toNat := by
  obtain ⟨a, e, hpos, hlt, hsum, hdigit⟩ := hst.bits
  refine ⟨st₀.partialRemainder x - D * a, e, hpos, hlt, ?_, ?_⟩
  · rw [hsum, hdivisor]
    ring
  · have hpow : (0 : Int) < 2 ^ k := Int.pow_pos (by decide)
    have hdividend : 2 ^ k * st₀.partialRemainder x + e = st.partialRemainder x + st.divisor d * a := by
      rw [hsum, hst.divisor_eq]
      ring
    have hquotient : (2 ^ k * st₀.partialRemainder x + e) / st.divisor d =
        a + st.nextDigit.toNat - 1 + (st.flag .m).toNat := Divided.ediv_of_inRange hst.range hdividend
    have hdropped : (2 ^ k * st₀.partialRemainder x + e) / st.divisor d = st₀.partialRemainder x / D := by
      rw [hst.divisor_eq, hdivisor, ← Int.ediv_ediv_of_nonneg (Int.le_of_lt hpow), Int.add_comm,
        Int.add_mul_ediv_left _ _ (Int.ne_of_gt hpow), Int.ediv_eq_zero_of_lt hpos hlt, Int.zero_add]
    rw [← hdropped, hquotient, hst.sign, hm, hdigit]
    exact Int.add_zero _

/-- After 16 steps, a last rotation and without the high half, `x` holds the quotient, if that fits. -/
theorem quotient (hst : DividedInPlace d x st₀ st 16) (hm : st₀.flag .m = false) {D : Int}
    (hdivisor : st₀.divisor d = 2 ^ 16 * D) (hpos : 0 ≤ st₀.partialRemainder x / D)
    (hlt : st₀.partialRemainder x / D < 2 ^ 16) :
    ((((st.rotateThrough x).extendHalf x x).reg x).toNat : Int) = st₀.partialRemainder x / D := by
  obtain ⟨c, e, he, helt, hremainder, hquotient⟩ := hst.ediv_eq hm hdivisor
  have hrotate := st.digits_rotateThrough x
  have hx : (st.partialRemainder x : Int) = (st.reg x).toNat - 2 ^ 32 * (st.flag .q).toNat := rfl
  have hdigits : st.digits x = 2 * (st.reg x).toNat + (st.flag .t).toNat := rfl
  have hreg : (((st.rotateThrough x).extendHalf x x).reg x).toNat = ((st.rotateThrough x).reg x).toNat % 2 ^ 16 := by
    rw [State.extendHalf, State.reg_setReg, if_pos rfl, BitVec.toNat_setWidth, BitVec.toNat_setWidth]
    omega
  rw [hreg]
  omega

end DividedInPlace

/-! ## The start of a division -/

/-- The state that the steps start from. -/
def State.shortStart (d : Fin 16) (st : State) : State := (st.shiftHalf d).divideUnsigned

variable {d x : Fin 16} {st : State}

theorem partialRemainder_shortStart (hdx : d ≠ x) : (st.shortStart d).partialRemainder x = (st.reg x).toNat := by
  rw [State.shortStart, State.partialRemainder_divideUnsigned, State.shiftHalf, State.reg_setReg, if_neg hdx.symm]

theorem divisor_shortStart (hhalf : (st.reg d).toNat < 2 ^ 16) :
    (st.shortStart d).divisor d = 2 ^ 16 * ((st.reg d).toNat : Int) := by
  rw [State.shortStart, State.divisor_divideUnsigned, State.shiftHalf, State.reg_setReg, if_pos rfl, BitVec.toNat_shiftLeft,
    Nat.shiftLeft_eq]
  omega

theorem dividedInPlace_shortStart (hdx : d ≠ x) (hhalf : (st.reg d).toNat < 2 ^ 16)
    (hlt : (st.reg x).toNat < (st.reg d).toNat * 2 ^ 16) : DividedInPlace d x (st.shortStart d) (st.shortStart d) 0 := by
  refine .start ?_ (State.flag_divideUnsigned_t _) (State.nextDigit_divideUnsigned _)
  rw [partialRemainder_shortStart hdx, divisor_shortStart hhalf, Divide.InRange]
  omega

end Cpu

/-! ## The program -/

/-- Divides the low half of `d` into `x`. -/
def shortDivision (d x : Fin 16) : List Insn :=
  [.onRegs .shll16 [d], .onRegs .div0u []] ++ List.replicate 16 (.onRegs .div1 [d, x]) ++
    [.onRegs .rotcl [x], .onHalves .extu [x, x]]

theorem transforms_shortDivision (d x : Fin 16) : Transforms (shortDivision d x) fun st =>
    (((·.divide d x)^[16] (st.shortStart d)).rotateThrough x).extendHalf x x :=
  let start := (Transforms.shll16 d).append .div0u
  let last := (Transforms.rotcl x).append (.extu x x)
  (start.append ((Transforms.div1 d x).iterate 16)).append last

theorem forward_shortDivision {d x : Fin 16} : ∀ p ∈ shortDivision d x, p.Forward := by
  intro p hp
  simp only [shortDivision, List.mem_append, List.mem_cons, List.mem_replicate, List.not_mem_nil, or_false] at hp
  rcases hp with ((rfl | rfl) | ⟨-, rfl⟩) | rfl | rfl
  · exact .onRegs nofun rfl rfl
  · exact .onRegs nofun rfl rfl
  · exact .onRegs nofun rfl rfl
  · exact .onRegs nofun rfl rfl
  · exact .onHalves nofun rfl

variable {σ : Type} [Bus σ] {bigEndian : Bool} {s : Session}

/-- From any state of a session and on any memory, SHLL16, DIV0U, 16 times DIV1, ROTCL and EXTU.W run through and move the
program counter past themselves. If the divisor has 16 bits and the dividend is less than the divisor moved up by so many,
they leave the quotient in the register of the dividend. -/
theorem short_division (hs : s.Reachable bigEndian) (bus : σ) {d x : Fin 16} (hdx : d ≠ x)
    (hhalf : (s.regs.state.reg d).toNat < 2 ^ 16)
    (hlt : (s.regs.state.reg x).toNat < (s.regs.state.reg d).toNat * 2 ^ 16) {insns : List Insn}
    (hinsns : insns.map Insn.plain = shortDivision d x) :
    ∃ s', Computer.executeAll insns ⟨s, bus⟩ = (List.replicate 20 (.ok ()), ⟨s', bus⟩) ∧
      (∃ pc, s.pc = .ok pc ∧ s'.pc = .ok (pc + 40)) ∧
      (s'.regs.state.reg x).toNat = (s.regs.state.reg x).toNat / (s.regs.state.reg d).toNat := by
  obtain ⟨s', hrun, hstate, hpc⟩ :=
    (transforms_shortDivision d x).run_forward hinsns forward_shortDivision hs.live bus
  refine ⟨s', hrun, hpc, ?_⟩
  let D := (s.regs.state.reg d).toNat
  let X := (s.regs.state.reg x).toNat
  have hsteps := (dividedInPlace_shortStart hdx hhalf hlt).steps hdx 16
  have hfits : X / D < 2 ^ 16 := Nat.div_lt_of_lt_mul hlt
  have hquotient : (s.regs.state.shortStart d).partialRemainder x / (D : Int) = ((X / D : Nat) : Int) := by
    rw [partialRemainder_shortStart hdx]
    exact (Int.natCast_ediv X D).symm
  have hx := hsteps.quotient (State.flag_divideUnsigned_m _) (divisor_shortStart hhalf)
    (hquotient ▸ Int.natCast_nonneg _) (hquotient ▸ Int.ofNat_lt.2 hfits)
  rw [hquotient] at hx
  rw [hstate]
  exact Int.ofNat.inj hx

/-- A hundred thousand divided by seven. -/
theorem short_division_by_seven :
    let regs := RegisterFile.zeros Cpu.profile
    let s : Session :=
      ⟨Cpu.initialVm false, final (RegisterFile.set "r1" 100000 (final (RegisterFile.set "r0" 7 regs))), lift⟩
    let bus := LinearMemory.zeros 0
    let insns := (shortDivision 0 1).map fun insn => { insn with size := if insn.size = .word then .word else .long }
    s.Reachable false ∧ (s.regs.state.reg 1).toNat < (s.regs.state.reg 0).toNat * 2 ^ 16 ∧
      ∃ s', Computer.executeAll insns ⟨s, bus⟩ = (List.replicate 20 (.ok ()), ⟨s', bus⟩) ∧
        (∃ pc, s.pc = .ok pc ∧ s'.pc = .ok (pc + 40)) ∧ (s'.regs.state.reg 1).toNat = 14285 := by
  intro regs s bus insns
  have hs : s.Reachable false := (Session.Reachable.start (Session.sh4_eq false)).write (by decide +kernel)
  have hd : s.regs.state.reg 0 = 7 := by decide +kernel
  have hx : s.regs.state.reg 1 = 100000 := by decide +kernel
  have hinsns : insns.map Insn.plain = shortDivision 0 1 := by decide
  -- with the registers in sight the run would be evaluated
  clear_value s insns
  have hhalf : (s.regs.state.reg 0).toNat < 2 ^ 16 := by
    rw [hd]
    decide
  have hlt : (s.regs.state.reg 1).toNat < (s.regs.state.reg 0).toNat * 2 ^ 16 := by
    rw [hd, hx]
    decide
  obtain ⟨s', hrun, hpc, hquotient⟩ := short_division hs bus (by decide) hhalf hlt hinsns
  rw [hd, hx] at hquotient
  exact ⟨hs, hlt, s', hrun, hpc, hquotient⟩

end SuperH
