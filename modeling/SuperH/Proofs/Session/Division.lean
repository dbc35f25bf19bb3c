import SuperH.Memory.Linear
import SuperH.Proofs.Lift.Quotient

/-!
# Division programs

DIV1 is one step of a division; the programs below divide.

* `unsignedDivision` : 64 bits by 32 without signs, which `unsigned_division` proves right;
* `signedDivision` : 32 bits by 32 with signs, which `signed_division` proves right.
-/

namespace SuperH

open Cpu

/-- The 32 rounds of a division and the last rotation. -/
def divisionRounds (d h x : Fin 16) : List Insn :=
  (List.replicate 32 [.onRegs .rotcl [x], .onRegs .div1 [d, h]]).flatten ++ [.onRegs .rotcl [x]]

/-- Divides `h` and `l`, the high and the low half of the dividend, by `d`. -/
def unsignedDivision (d h l : Fin 16) : List Insn := .onRegs .div0u [] :: divisionRounds d h l

/-- Divides `x` by `d`, with two more registers for the dividend's high half and for the dividend's sign. A dividend
below zero is made one smaller first, and a quotient below zero one larger last. -/
def signedDivision (d h x z : Fin 16) : List Insn :=
  [.onRegs .mov [x, z], .onRegs .rotcl [z], .onRegs .subc [h, h], .onRegs .xor [z, z], .onRegs .subc [z, x],
    .onRegs .div0s [d, h]] ++ divisionRounds d h x ++ [.onRegs .addc [z, x]]

theorem transforms_divisionRounds (d h x : Fin 16) :
    Transforms (divisionRounds d h x) fun st => ((·.round d h x)^[32] st).rotateThrough x :=
  (((Transforms.rotcl x).append (.div1 d h)).iterate 32).append (.rotcl x)

theorem mnemonic_divisionRounds {d h x : Fin 16} : ∀ insn ∈ divisionRounds d h x, insn.mnemonic ≠ .invalid := by
  intro insn hi
  have hround : insn ∈ [Insn.onRegs .rotcl [x], .onRegs .div1 [d, h]] := by
    rcases List.mem_append.1 hi with hi | hi
    · obtain ⟨round, hround, hi⟩ := List.mem_flatten.1 hi
      exact List.eq_of_mem_replicate hround ▸ hi
    · exact List.mem_cons.2 (.inl (List.mem_singleton.1 hi))
  rcases List.mem_cons.1 hround with rfl | hi
  · exact nofun
  · obtain rfl := List.mem_singleton.1 hi
    exact nofun

/-- A program of the machine, whatever words its instructions were decoded from. -/
theorem Cpu.Transforms.run_withoutOpcode {σ : Type} [Bus σ] {bigEndian : Bool} {program insns : List Insn}
    {f : State → State} (h : Transforms program f) (hvalid : ∀ insn ∈ program, insn.mnemonic ≠ .invalid)
    (hinsns : insns.map Insn.withoutOpcode = program) {s : Session} (hs : s.Live bigEndian) (bus : σ) :
    ∃ s', Computer.executeAll insns ⟨s, bus⟩ = (List.replicate program.length (.ok ()), ⟨s', bus⟩) ∧
      s'.regs.state = f s.regs.state := by
  subst hinsns
  obtain ⟨s', hrun, -, hstate⟩ := h.run bus hs
  have hvalid' : ∀ insn ∈ insns, insn.mnemonic ≠ .invalid := fun insn hi =>
    hvalid insn.withoutOpcode (List.mem_map_of_mem hi)
  rw [executeAll_withoutOpcode hvalid' hs] at hrun
  exact ⟨s', hrun, hstate⟩

variable {σ : Type} [Bus σ] {bigEndian : Bool} {s : Session}

/-- From any state of a session and on any memory, DIV0U, 32 rounds of ROTCL and DIV1, and a last ROTCL run through. If
the high half of the dividend is below the divisor, they leave the quotient in the low half's register, and the divisor
as it was. -/
theorem unsigned_division (hs : s.Reachable bigEndian) (bus : σ) {d h l : Fin 16} (hdh : d ≠ h) (hdl : d ≠ l)
    (hhl : h ≠ l) (hlt : s.regs.state.reg h < s.regs.state.reg d) {insns : List Insn}
    (hinsns : insns.map Insn.withoutOpcode = unsignedDivision d h l) :
    ∃ s', Computer.executeAll insns ⟨s, bus⟩ = (List.replicate 66 (.ok ()), ⟨s', bus⟩) ∧
      s'.regs.state.reg d = s.regs.state.reg d ∧
      (s'.regs.state.reg l).toNat =
        ((s.regs.state.reg h).toNat * 2 ^ 32 + (s.regs.state.reg l).toNat) / (s.regs.state.reg d).toNat := by
  have htransforms := (Transforms.div0u).cons (transforms_divisionRounds d h l)
  have hvalid : ∀ insn ∈ unsignedDivision d h l, insn.mnemonic ≠ .invalid :=
    List.forall_mem_cons.2 ⟨nofun, mnemonic_divisionRounds⟩
  obtain ⟨s', hrun, hstate⟩ := htransforms.run_withoutOpcode hvalid hinsns hs.live bus
  refine ⟨s', hrun, ?_⟩
  let st₀ := s.regs.state.divideUnsigned
  have hreg : ∀ n, st₀.reg n = s.regs.state.reg n := by simp [st₀, State.divideUnsigned]
  have hm : st₀.flag .m = false := by simp [st₀, State.divideUnsigned]
  have hq : st₀.flag .q = false := by simp [st₀, State.divideUnsigned]
  have ht : st₀.flag .t = false := by simp [st₀, State.divideUnsigned]
  have hremainder : st₀.partialRemainder h = (s.regs.state.reg h).toNat := by
    simp [State.partialRemainder, Divide.signed, hq, hreg]
  have hdivisor : st₀.divisor d = (s.regs.state.reg d).toNat := by
    simp [State.divisor, Divide.signed, hm, hreg]
  have hrange : Divide.InRange (st₀.partialRemainder h) (st₀.divisor d) := by
    rw [hremainder, hdivisor, Divide.InRange]
    rw [BitVec.lt_def] at hlt
    omega
  have hdivided := Divided.rounds hdh hdl hhl hrange (by rw [ht, State.nextDigit, Divide.subtracts, hq, hm]; rfl) 32
  obtain ⟨hquotient, -⟩ := hdivided.quotient hdh hdl
  rw [hremainder, hdivisor, hm, ht, hreg] at hquotient
  have hfinal : s'.regs.state = ((·.round d h l)^[32] st₀).rotateThrough l := hstate
  rw [hfinal]
  constructor
  · rw [State.reg_rotateThrough hdl, hdivided.reg d hdh hdl, hreg]
  · rw [Nat.mul_comm]
    simp only [Bool.toNat_false, Nat.cast_zero, mul_zero, add_zero, sub_zero] at hquotient
    exact_mod_cast hquotient

/-- 2^32 divided by three. -/
theorem unsigned_division_by_three :
    let regs := RegisterFile.zeros Cpu.profile
    let s : Session :=
      ⟨Cpu.initialVm false, final (RegisterFile.set "r1" 1 (final (RegisterFile.set "r0" 3 regs))), lift⟩
    let bus := LinearMemory.zeros 4
    s.Reachable false ∧ s.regs.state.reg 1 < s.regs.state.reg 0 ∧
      ∃ s', Computer.executeAll (unsignedDivision 0 1 2) ⟨s, bus⟩ = (List.replicate 66 (.ok ()), ⟨s', bus⟩) ∧
        s'.regs.state.reg 0 = s.regs.state.reg 0 ∧ (s'.regs.state.reg 2).toNat = 0x55555555 := by
  intro regs s bus
  have hs : s.Reachable false := (Session.Reachable.start (Session.sh4_eq false)).write (by decide +kernel)
  have hd : s.regs.state.reg 0 = 3 := by decide +kernel
  have hh : s.regs.state.reg 1 = 1 := by decide +kernel
  have hl : s.regs.state.reg 2 = 0 := by decide +kernel
  have hlt : s.regs.state.reg 1 < s.regs.state.reg 0 := by
    rw [hd, hh]
    decide
  have hinsns : (unsignedDivision 0 1 2).map Insn.withoutOpcode = unsignedDivision 0 1 2 := rfl
  -- with the registers in sight the run would be evaluated
  clear_value s
  obtain ⟨s', hrun, hkept, hquotient⟩ :=
    unsigned_division (l := 2) hs bus (by decide) (by decide) (by decide) hlt hinsns
  rw [hd, hh, hl] at hquotient
  exact ⟨hs, hlt, s', hrun, hkept, hquotient⟩

/-! ## With signs -/

/-- Dividing one less than a negative number loses the sign of the divisor. -/
theorem Cpu.sub_one_ediv {a b : Int} (ha : a < 0) (hb : b ≠ 0) : (a - 1) / b = a.tdiv b - b.sign := by
  have htdiv : a.tdiv b = -(-a / b) := by
    rw [← Int.tdiv_eq_ediv_of_nonneg (by omega), Int.neg_tdiv, Int.neg_neg]
  have hmod := Int.emod_nonneg (-a) hb
  have hlt := Int.emod_lt_abs (-a) hb
  have hsum := Int.emod_add_mul_ediv (-a) b
  have hsign : b * b.sign = |b| := by rw [Int.mul_sign_self, Int.abs_eq_natAbs]
  refine ((Int.ediv_emod_unique'' hb (r := |b| - 1 - -a % b)).2 ⟨?_, by omega, by omega⟩).1
  rw [htdiv, mul_sub, hsign, mul_neg]
  omega

namespace Cpu

/-- The state that the rounds of a signed division start from. -/
def State.signedStart (d h x z : Fin 16) (st : State) : State :=
  (((((st.move x z).rotateThrough z).subWithBorrow h h).xorWith z z).subWithBorrow z x).divideSigned d h

/-- The dividend has 64 bits, and is one less than it was if it was below zero. -/
structure Prepared (d h x z : Fin 16) (st st₀ : State) : Prop where
  divisor : st₀.reg d = st.reg d
  zero : st₀.reg z = 0#32
  high : st₀.reg h = if (st.reg x).msb then -1 else 0
  low : st₀.reg x = st.reg x - if (st.reg x).msb then 1 else 0
  m : st₀.flag .m = (st.reg d).msb
  q : st₀.flag .q = (st.reg x).msb
  t : st₀.flag .t = ((st.reg d).msb ^^ (st.reg x).msb)

theorem prepared_signedStart {d h x z : Fin 16} (hdh : d ≠ h) (hdx : d ≠ x) (hdz : d ≠ z) (hhx : h ≠ x) (hhz : h ≠ z)
    (hxz : x ≠ z) (st : State) : Prepared d h x z st (st.signedStart d h x z) := by
  let st₁ := (st.move x z).rotateThrough z
  let st₂ := (st₁.subWithBorrow h h).xorWith z z
  have ht₁ : st₁.flag .t = (st.reg x).msb := by simp [st₁, State.move, State.rotateThrough]
  have hreg₁ : ∀ n, n ≠ z → st₁.reg n = st.reg n := by
    intro n hn
    simp [st₁, State.move, State.rotateThrough, hn]
  have ht₂ : st₂.flag .t = (st.reg x).msb := by
    -- what is subtracted from itself borrows just if T is set
    simp only [st₂, State.subWithBorrow, State.xorWith, State.flag_setReg, State.flag_setFlag, if_true, ht₁]
    cases (st.reg x).msb <;> simp
  have hreg₂ : ∀ n, n ≠ z → n ≠ h → st₂.reg n = st.reg n := by
    intro n hn hh
    simp [st₂, State.subWithBorrow, State.xorWith, hn, hh, hreg₁ n hn]
  have hz₂ : st₂.reg z = 0#32 := by simp [st₂, State.subWithBorrow, State.xorWith, hhz.symm]
  have hh₂ : st₂.reg h = if (st.reg x).msb then -1 else 0 := by
    simp only [st₂, State.subWithBorrow, State.xorWith, State.reg_setReg, State.reg_setFlag, ne_eq, reduceCtorEq,
      not_false_eq_true, hhz, if_true, if_false, State.flagWord, ht₁, BitVec.sub_self]
    cases (st.reg x).msb <;> rfl
  have hmsb : (st₂.reg h).msb = (st.reg x).msb := by
    rw [hh₂]
    cases (st.reg x).msb <;> decide
  have hstart : st.signedStart d h x z = (st₂.subWithBorrow z x).divideSigned d h := rfl
  rw [hstart]
  constructor
  · simp [State.subWithBorrow, State.divideSigned, hdx, hreg₂ d hdz hdh]
  · simp [State.subWithBorrow, State.divideSigned, hxz.symm, hz₂]
  · simp [State.subWithBorrow, State.divideSigned, hhx, hh₂]
  · simp only [State.subWithBorrow, State.divideSigned, State.reg_setFlag, State.reg_setReg, ne_eq, reduceCtorEq,
      not_false_eq_true, if_true, hreg₂ x hxz hhx.symm, hz₂, State.flagWord, ht₂, BitVec.sub_zero]
  · simp [State.subWithBorrow, State.divideSigned, hdx, hreg₂ d hdz hdh]
  · simp [State.subWithBorrow, State.divideSigned, hhx, hmsb]
  · simp [State.subWithBorrow, State.divideSigned, hdx, hhx, hreg₂ d hdz hdh, hmsb]

namespace Prepared

variable {d h x z : Fin 16} {st st₀ : State}

theorem divisor_eq (hp : Prepared d h x z st st₀) : st₀.divisor d = (st.reg d).toInt := by
  rw [State.divisor, hp.divisor, hp.m, Divide.signed, BitVec.toInt_eq_msb_cond]
  cases (st.reg d).msb <;> simp

theorem partialRemainder_eq (hp : Prepared d h x z st st₀) : st₀.partialRemainder h = -((st.reg x).msb.toNat : Int) := by
  rw [State.partialRemainder, hp.high, hp.q, Divide.signed]
  cases (st.reg x).msb <;> rfl

theorem dividend_eq (hp : Prepared d h x z st st₀) :
    2 ^ 32 * st₀.partialRemainder h + (st₀.reg x).toNat = (st.reg x).toInt - (st.reg x).msb.toNat := by
  have hmsb := BitVec.msb_eq_decide (st.reg x)
  rw [hp.partialRemainder_eq, hp.low, BitVec.toInt_eq_msb_cond]
  cases h : (st.reg x).msb with
  | false => simp
  | true =>
    rw [h] at hmsb
    have hle : 1 ≤ (st.reg x).toNat := Nat.le_trans (by decide) (of_decide_eq_true hmsb.symm)
    have hsub : (st.reg x - 1).toNat = (st.reg x).toNat - 1 := BitVec.toNat_sub_of_le (BitVec.le_def.2 hle)
    simp only [if_true, hsub, Bool.toNat_true]
    omega

theorem inRange (hp : Prepared d h x z st st₀) (hne : (st.reg d).toInt ≠ 0) :
    Divide.InRange (st₀.partialRemainder h) (st₀.divisor d) := by
  have hle := Bool.toNat_le (st.reg x).msb
  rw [hp.partialRemainder_eq, hp.divisor_eq, Divide.InRange]
  omega

theorem nextDigit_eq (hp : Prepared d h x z st st₀) : st₀.flag .t = !st₀.nextDigit := by
  rw [State.nextDigit, Divide.subtracts, hp.t, hp.q, hp.m]
  cases (st.reg x).msb <;> cases (st.reg d).msb <;> rfl

/-- The quotient that the rounds find is right once T is added to it. -/
theorem quotient_eq (hp : Prepared d h x z st st₀) (hne : (st.reg d).toInt ≠ 0) :
    (2 ^ 32 * st₀.partialRemainder h + (st₀.reg x).toNat) / st₀.divisor d - (st₀.flag .m).toNat + (st₀.flag .t).toNat =
      (st.reg x).toInt.tdiv (st.reg d).toInt := by
  have hsign : (st.reg d).toInt.sign = 1 - 2 * ((st.reg d).msb.toNat : Int) := by
    have hd := BitVec.toInt_eq_msb_cond (st.reg d)
    have hlt := (st.reg d).isLt
    cases h : (st.reg d).msb with
    | false =>
      rw [h, if_neg Bool.false_ne_true] at hd
      exact Int.sign_eq_one_of_pos (by omega)
    | true =>
      rw [h, if_pos rfl] at hd
      exact Int.sign_eq_neg_one_of_neg (by omega)
  rw [hp.dividend_eq, hp.divisor_eq, hp.t, hp.m]
  have hx := BitVec.toInt_eq_msb_cond (st.reg x)
  cases h : (st.reg x).msb with
  | false =>
    rw [h, if_neg Bool.false_ne_true] at hx
    rw [Int.tdiv_eq_ediv_of_nonneg (by omega), Bool.xor_false, Bool.toNat_false, Int.natCast_zero, Int.sub_zero]
    omega
  | true =>
    have hlt := (st.reg x).isLt
    rw [h, if_pos rfl] at hx
    have hdiv := sub_one_ediv (show (st.reg x).toInt < 0 by omega) hne
    rw [Bool.xor_true, Bool.toNat_true, Int.natCast_one, hdiv, hsign]
    cases (st.reg d).msb <;> simp only [Bool.not_true, Bool.not_false, Bool.toNat_true, Bool.toNat_false] <;> omega

end Prepared

end Cpu

/-- From any state of a session and on any memory the program runs through. If the divisor is not zero, it leaves the
quotient in the dividend's register, rounded towards zero and modulo `2 ^ 32`. -/
theorem signed_division (hs : s.Reachable bigEndian) (bus : σ) {d h x z : Fin 16} (hdh : d ≠ h) (hdx : d ≠ x)
    (hdz : d ≠ z) (hhx : h ≠ x) (hhz : h ≠ z) (hxz : x ≠ z) (hzero : s.regs.state.reg d ≠ 0) {insns : List Insn}
    (hinsns : insns.map Insn.withoutOpcode = signedDivision d h x z) :
    ∃ s', Computer.executeAll insns ⟨s, bus⟩ = (List.replicate 72 (.ok ()), ⟨s', bus⟩) ∧
      s'.regs.state.reg x = BitVec.ofInt 32 ((s.regs.state.reg x).toInt.tdiv (s.regs.state.reg d).toInt) := by
  have hprepare := (Transforms.mov x z).append <| (Transforms.rotcl z).append <| (Transforms.subc h h).append <|
    (Transforms.xor z z).append <| (Transforms.subc z x).append (.div0s d h)
  have htransforms := (hprepare.append (transforms_divisionRounds d h x)).append (.addc z x)
  have hvalid : ∀ insn ∈ signedDivision d h x z, insn.mnemonic ≠ .invalid := by
    simp only [signedDivision, List.forall_mem_append, List.forall_mem_cons]
    exact ⟨⟨⟨nofun, nofun, nofun, nofun, nofun, nofun, nofun⟩, mnemonic_divisionRounds⟩, nofun, nofun⟩
  obtain ⟨s', hrun, hstate⟩ := htransforms.run_withoutOpcode hvalid hinsns hs.live bus
  refine ⟨s', hrun, ?_⟩
  have hne : (s.regs.state.reg d).toInt ≠ 0 := fun h => hzero (BitVec.toInt_inj.1 h)
  have hp := prepared_signedStart hdh hdx hdz hhx hhz hxz s.regs.state
  have hdivided := Divided.rounds hdh hdx hhx (hp.inRange hne) hp.nextDigit_eq 32
  have hquotient := hp.quotient_eq hne
  obtain ⟨hx, hcarry⟩ := hdivided.quotient hdh hdx
  let st' := ((·.round d h x)^[32] (s.regs.state.signedStart d h x z)).rotateThrough x
  have hz : st'.reg z = 0#32 := by
    rw [State.reg_rotateThrough hxz.symm, hdivided.reg z hhz.symm hxz.symm, hp.zero]
  have hfinal : s'.regs.state.reg x = st'.reg x + st'.flagWord .t := by
    rw [hstate]
    show (st'.addWithCarry z x).reg x = _
    simp [State.addWithCarry, hz]
  apply BitVec.eq_of_toNat_eq
  rw [hfinal, BitVec.toNat_add, State.toNat_flagWord, BitVec.toNat_ofInt, ← hquotient, hcarry]
  have hx : ((st'.reg x).toNat : Int) = _ := hx
  omega

/-- Minus seven divided by two. -/
theorem signed_division_toward_zero :
    let regs := RegisterFile.zeros Cpu.profile
    let s : Session :=
      ⟨Cpu.initialVm false, final (RegisterFile.set "r2" 0xfffffff9 (final (RegisterFile.set "r0" 2 regs))), lift⟩
    let bus := LinearMemory.zeros 4
    s.Reachable false ∧ s.regs.state.reg 0 ≠ 0 ∧
      ∃ s', Computer.executeAll (signedDivision 0 1 2 3) ⟨s, bus⟩ = (List.replicate 72 (.ok ()), ⟨s', bus⟩) ∧
        s'.regs.state.reg 2 = -3 := by
  intro regs s bus
  have hs : s.Reachable false := (Session.Reachable.start (Session.sh4_eq false)).write (by decide +kernel)
  have hd : s.regs.state.reg 0 = 2 := by decide +kernel
  have hx : s.regs.state.reg 2 = -7 := by decide +kernel
  have hzero : s.regs.state.reg 0 ≠ 0 := by
    rw [hd]
    decide
  have hinsns : (signedDivision 0 1 2 3).map Insn.withoutOpcode = signedDivision 0 1 2 3 := rfl
  clear_value s
  obtain ⟨s', hrun, hquotient⟩ := signed_division hs bus (d := 0) (h := 1) (x := 2) (z := 3) (by decide) (by decide)
    (by decide) (by decide) (by decide) (by decide) hzero hinsns
  rw [hd, hx] at hquotient
  exact ⟨hs, hzero, s', hrun, hquotient⟩

end SuperH
