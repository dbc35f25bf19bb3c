import Mathlib.Algebra.BigOperators.Group.Finset.Basic
import SuperH.Proofs.Lift.MultiplyAccumulate

/-!
# Dot products

* `State.dotProduct` : MACH:MACL plus the products of pairs of factors in a row;
* `Cpu.Accumulated` : what several MAC leave of a state, which one more continues (`Accumulated.step`);
* `dot_product` : a run of them computes a dot product.
-/

namespace SuperH

open SuperH.Cpu

variable {σ : Type} [Bus σ] {bigEndian : Bool}

namespace Cpu

/-- The bytes that a pointer has moved on when the factor of the first operand is loaded. -/
def lag (bytes : Nat) (m n : Fin 16) : Nat := if m = n then bytes else 0

/-- The bytes that a pointer moves on. -/
def stride (bytes : Nat) (m n : Fin 16) : Nat := if m = n then 2 * bytes else bytes

theorem lag_add (bytes : Nat) (m n : Fin 16) : lag bytes m n + bytes = stride bytes m n := by
  unfold lag stride
  split <;> omega

theorem ofNat_mul_succ (addr : Address) (a k : Nat) :
    addr + BitVec.ofNat 32 (a * k) + BitVec.ofNat 32 a = addr + BitVec.ofNat 32 (a * (k + 1)) := by
  rw [BitVec.add_assoc, ← BitVec.ofNat_add, Nat.mul_succ]

namespace State

variable (bigEndian : Bool) (bus : σ)

/-- MACH:MACL plus the products of the first `k` pairs of factors. One pointer for both names the factors of a pair in
turn. -/
def dotProduct (bytes : Nat) (m n : Fin 16) (st : State) (k : Nat) : BitVec 64 :=
  let a i := factor bigEndian bus bytes (st.reg m + BitVec.ofNat 32 (stride bytes m n * i + lag bytes m n))
  let b i := factor bigEndian bus bytes (st.reg n + BitVec.ofNat 32 (stride bytes m n * i))
  st.acc + BitVec.ofInt 64 (∑ i ∈ Finset.range k, a i * b i)

variable (form : MacForm) (m n : Fin 16) (st : State)

theorem reg_advance (bytes : Nat) : (st.advance n bytes).reg m = st.reg m + BitVec.ofNat 32 (lag bytes m n) := by
  unfold advance lag
  rw [reg_setReg]
  split
  · rw [‹m = n›]
  · exact (BitVec.add_zero _).symm

theorem reg_mac_fst : (st.mac bigEndian bus form m n).reg m = st.reg m + BitVec.ofNat 32 (stride form.bytes m n) := by
  unfold mac
  rw [reg_setAcc, advance, reg_setReg, if_pos rfl, reg_advance, BitVec.add_assoc, ← BitVec.ofNat_add, lag_add]

theorem reg_mac_snd : (st.mac bigEndian bus form m n).reg n = st.reg n + BitVec.ofNat 32 (stride form.bytes m n) := by
  unfold mac
  rw [reg_setAcc, reg_advance, advance, reg_setReg, if_pos rfl, BitVec.add_assoc, ← BitVec.ofNat_add, Nat.add_comm,
    ← lag_add]
  simp only [lag, eq_comm]

end State

/-- What `k` instructions leave of a state. -/
structure Accumulated (bigEndian : Bool) (bus : σ) (form : MacForm) (m n : Fin 16) (st : State) (k : Nat) (st' : State) :
    Prop where
  flag : st'.flag = st.flag
  fst : st'.reg m = st.reg m + BitVec.ofNat 32 (stride form.bytes m n * k)
  snd : st'.reg n = st.reg n + BitVec.ofNat 32 (stride form.bytes m n * k)
  acc : st'.acc = form.cut (st.flag .s && decide (0 < k)) (st.dotProduct bigEndian bus form.bytes m n k)

namespace Accumulated

variable {bus : σ} {form : MacForm} {m n : Fin 16} {st st' : State} {k : Nat}

theorem zero : Accumulated bigEndian bus form m n st 0 st where
  flag := rfl
  fst := (BitVec.add_zero _).symm
  snd := (BitVec.add_zero _).symm
  acc := by
    rw [decide_eq_false (Nat.lt_irrefl 0), Bool.and_false]
    exact (BitVec.add_zero _).symm

/-- One more instruction adds one more product. -/
theorem step (h : Accumulated bigEndian bus form m n st k st') :
    Accumulated bigEndian bus form m n st (k + 1) (st'.mac bigEndian bus form m n) where
  flag := h.flag
  fst := by rw [State.reg_mac_fst, h.fst, ofNat_mul_succ]
  snd := by rw [State.reg_mac_snd, h.snd, ofNat_mul_succ]
  acc := by
    have hcut (product sum : BitVec 64) : form.cut (st.flag .s) (product + form.cut (st.flag .s && decide (0 < k)) sum) =
        form.cut (st.flag .s) (product + sum) := form.cut_add_cut (fun hs => (Bool.and_eq_true_iff.1 hs).1) ..
    unfold State.mac
    dsimp only
    rw [State.acc_setAcc, State.reg_advance, h.acc, h.fst, h.snd, h.flag, hcut, decide_eq_true (Nat.succ_pos k), Bool.and_true,
      BitVec.add_assoc, ← BitVec.ofNat_add]
    refine congrArg _ ?_
    unfold State.dotProduct
    dsimp only
    rw [Finset.sum_range_succ, BitVec.ofInt_add, BitVec.add_comm, BitVec.add_assoc, mul_comm]

end Accumulated

end Cpu

/-- Several instructions on a memory where all of their factors are mapped. -/
theorem executeAll_mac {s : Session} (hs : s.Live bigEndian) {bus : σ} {form : MacForm} {m n : Fin 16} {k : Nat}
    (hm : ∀ i < stride form.bytes m n * k, Bus.Mapped bus (s.regs.state.reg m + BitVec.ofNat 32 i))
    (hn : ∀ i < stride form.bytes m n * k, Bus.Mapped bus (s.regs.state.reg n + BitVec.ofNat 32 i)) :
    ∃ s', Computer.executeAll (List.replicate k (Insn.mac form.size m n)) ⟨s, bus⟩ = (List.replicate k (.ok ()), ⟨s', bus⟩) ∧
      s'.Live bigEndian ∧ Accumulated bigEndian bus form m n s.regs.state k s'.regs.state := by
  induction k with
  | zero => exact ⟨s, rfl, hs, .zero⟩
  | succ k ih =>
    have hstride : stride form.bytes m n * k + stride form.bytes m n = stride form.bytes m n * (k + 1) :=
      (Nat.mul_succ ..).symm
    have hlag := lag_add form.bytes m n
    obtain ⟨s₁, hrun, hs₁, h₁⟩ := ih (fun i hi => hm i (by omega)) fun i hi => hn i (by omega)
    have hn₁ : ∀ i < form.bytes, Bus.Mapped bus (s₁.regs.state.reg n + BitVec.ofNat 32 i) := by
      intro i hi
      rw [h₁.snd, BitVec.add_assoc, ← BitVec.ofNat_add]
      exact hn _ (by omega)
    have hm₁ : ∀ i < form.bytes, Bus.Mapped bus ((s₁.regs.state.advance n form.bytes).reg m + BitVec.ofNat 32 i) := by
      intro i hi
      rw [State.reg_advance, h₁.fst, BitVec.add_assoc, BitVec.add_assoc, ← BitVec.ofNat_add, ← BitVec.ofNat_add]
      exact hm _ (by omega)
    obtain ⟨s₂, hlast, hs₂, hstate⟩ := execute_mac hs₁ hn₁ hm₁
    refine ⟨s₂, ?_, hs₂, hstate ▸ h₁.step⟩
    rw [List.replicate_succ', Computer.executeAll_append, hrun]
    simp only [Computer.executeAll, hlast, List.replicate_succ']
    rfl

/-- From any state of a session, in either byte order and on any memory where the factors are mapped, MAC.L and MAC.W
run through. They add the products to MACH:MACL and move the pointers on; if flag S is set, the sum is cut to 48 or to 32
bits and extended with its sign. -/
theorem dot_product {s : Session} (hs : s.Reachable bigEndian) (bus : σ) {size : AccessSize} {bytes bits : Nat}
    (hsize : (size, bytes, bits) ∈ [(.long, 4, 48), (.word, 2, 32)]) {m n : Fin 16} {k : Nat} {insns : List Insn}
    (hinsns : insns.map Insn.withoutOpcode = List.replicate k (Insn.mac size m n))
    (hm : ∀ i < stride bytes m n * k, Bus.Mapped bus (s.regs.state.reg m + BitVec.ofNat 32 i))
    (hn : ∀ i < stride bytes m n * k, Bus.Mapped bus (s.regs.state.reg n + BitVec.ofNat 32 i)) :
    let sum := s.regs.state.dotProduct bigEndian bus bytes m n k
    ∃ s', Computer.executeAll insns ⟨s, bus⟩ = (List.replicate k (.ok ()), ⟨s', bus⟩) ∧
      s'.regs.state.flag = s.regs.state.flag ∧
      s'.regs.state.reg m = s.regs.state.reg m + BitVec.ofNat 32 (stride bytes m n * k) ∧
      s'.regs.state.reg n = s.regs.state.reg n + BitVec.ofNat 32 (stride bytes m n * k) ∧
      s'.regs.state.acc = if s.regs.state.flag .s ∧ 0 < k then (sum.setWidth bits).signExtend 64 else sum := by
  intro sum
  obtain ⟨form, rfl, rfl, rfl⟩ : ∃ form : MacForm, form.size = size ∧ form.bytes = bytes ∧ form.saturationBits = bits := by
    simp only [List.mem_cons, List.not_mem_nil, or_false, Prod.mk.injEq] at hsize
    rcases hsize with ⟨rfl, rfl, rfl⟩ | ⟨rfl, rfl, rfl⟩
    · exact ⟨.long, rfl, rfl, rfl⟩
    · exact ⟨.word, rfl, rfl, rfl⟩
  have hvalid : ∀ insn ∈ insns, insn.mnemonic ≠ .invalid := by
    intro insn hi
    have hmac := List.mem_map_of_mem (f := Insn.withoutOpcode) hi
    rw [hinsns] at hmac
    have hmnemonic := congrArg Insn.mnemonic (List.eq_of_mem_replicate hmac)
    exact fun h => nomatch h.symm.trans hmnemonic
  obtain ⟨s', hrun, -, h⟩ := executeAll_mac hs.live hm hn
  rw [← hinsns, executeAll_withoutOpcode hvalid hs.live] at hrun
  refine ⟨s', hrun, h.flag, h.fst, h.snd, h.acc.trans ?_⟩
  exact if_congr (by rw [Bool.and_eq_true, decide_eq_true_iff]) rfl rfl

/-- 2 times 3 and -1 times 4, in sixteen bits each, with a sum that leaves 32 bits. -/
theorem dot_product_saturated :
    let regs := final (RegisterFile.set "sr" 2 (RegisterFile.zeros Cpu.profile))
    let s : Session :=
      ⟨Cpu.initialVm true, final (RegisterFile.set "r2" 4 (final (RegisterFile.set "macl" 0x7fffffff regs))), lift⟩
    let bus : LinearMemory := { bytes := #[0, 2, 0xff, 0xff, 0, 3, 0, 4] }
    s.Reachable true ∧
      ∃ s', Computer.executeAll (List.replicate 2 (Insn.mac .word 1 2)) ⟨s, bus⟩ = ([.ok (), .ok ()], ⟨s', bus⟩) ∧
        s'.regs.state.flag = s.regs.state.flag ∧ s'.regs.state.reg 1 = 4 ∧ s'.regs.state.reg 2 = 8 ∧
        s'.regs.state.acc = 0xffffffff80000001 := by
  intro regs s bus
  have hs : s.Reachable true := (Session.Reachable.start (Session.sh4_eq true)).write (by decide +kernel)
  have hr1 : s.regs.state.reg 1 = BitVec.ofNat 32 0 := by decide +kernel
  have hr2 : s.regs.state.reg 2 = BitVec.ofNat 32 4 := by decide +kernel
  have hflag : s.regs.state.flag .s = true := by decide +kernel
  have hacc : s.regs.state.acc = 0x7fffffff := by decide +kernel
  have hmapped : ∀ i < 8, Bus.Mapped bus (BitVec.ofNat 32 i) := fun i hi =>
    LinearMemory.mapped_of_lt rfl (by rw [BitVec.toNat_ofNat]; exact Nat.lt_of_le_of_lt (Nat.mod_le ..) hi)
  have hstride : stride 2 1 2 * 2 = 4 := rfl
  -- with the registers in sight the run would be evaluated
  clear_value s
  have hm : ∀ i < stride 2 1 2 * 2, Bus.Mapped bus (s.regs.state.reg 1 + BitVec.ofNat 32 i) := by
    intro i hi
    rw [hr1, ← BitVec.ofNat_add]
    exact hmapped (0 + i) (by omega)
  have hn : ∀ i < stride 2 1 2 * 2, Bus.Mapped bus (s.regs.state.reg 2 + BitVec.ofNat 32 i) := by
    intro i hi
    rw [hr2, ← BitVec.ofNat_add]
    exact hmapped (4 + i) (by omega)
  have hinsns : (List.replicate 2 (Insn.mac .word 1 2)).map Insn.withoutOpcode = List.replicate 2 (Insn.mac .word 1 2) := rfl
  have hsize : (AccessSize.word, 2, 32) ∈ [(AccessSize.long, 4, 48), (.word, 2, 32)] := by decide
  obtain ⟨s', hrun, hkept, hm', hn', hsum⟩ := dot_product hs bus hsize hinsns hm hn
  rw [hr1] at hm'
  rw [hr2] at hn'
  refine ⟨hs, s', hrun, hkept, hm', hn', hsum.trans ?_⟩
  rw [hflag, State.dotProduct, hacc, hr1, hr2]
  decide +kernel

end SuperH
