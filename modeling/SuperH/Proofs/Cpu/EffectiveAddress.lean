import SuperH.Proofs.Cpu.Address

/-!
# Effective addresses

* `Operand.location` : where an operand is, in the arithmetic of integers; `State.address_eq` : addresses are locations modulo
  the size of the address space;
* `effectiveAddress_of_value` : the operands that have no address; `effectiveAddress_invalidRegister`,
  `effectiveAddress_invalidSize` : those that are refused; `exists_effectiveAddress_location` : the others have a location, and
  an expression for it;
* `effective_addresses` : every operand, at every access size, by the values of the registers.
-/

namespace SuperH

/-! ## Locations -/

/-- Where an operand of the instruction at `pc` is, from the values of the registers: an integer that may lie outside of the
address space. Displacements count accesses, and those of branches are signed and count words. -/
def Operand.location (reg : Nat → Int) (pc : Nat) (size : AccessSize) : Operand → Option Int
  | .indirect n | .postInc n | .preDec n => some (reg n)
  | .displaced n disp => size.bytes?.map fun bytes : Nat => reg n + disp * bytes
  | .indexed n => some (reg Cpu.r0 + reg n)
  | .gbrDisp disp => size.bytes?.map fun bytes : Nat => reg Cpu.gbr + disp * bytes
  | .gbrIndexed => some (reg Cpu.gbr + reg Cpu.r0)
  | .pcDisp disp => size.bytes?.map fun bytes : Nat => (if size = .long then pc - pc % 4 else pc : Nat) + 4 + disp * bytes
  | .pcRel8 disp => some (pc + 4 + 2 * (BitVec.ofNat 8 disp).toInt)
  | .pcRel12 disp => some (pc + 4 + 2 * (BitVec.ofNat 12 disp).toInt)
  | .pcReg n => some (pc + 4 + reg n)
  | .reg _ | .immU _ | .immS _ => none

namespace Cpu

theorem ofInt_signExtend {bits : Nat} (d : BitVec bits) : d.signExtend 32 <<< 1 = BitVec.ofInt 32 (2 * d.toInt) := by
  rw [BitVec.signExtend, BitVec.shiftLeft_eq_mul_twoPow, BitVec.ofInt_mul, BitVec.mul_comm]
  rfl

theorem getLsbD_align : ∀ i < 32, (0xfffffffc : BitVec 32).getLsbD i = decide (2 ≤ i) := by decide

/-- The two low bits are cleared. -/
theorem ofNat_and_align (pc : Nat) : BitVec.ofNat 32 pc &&& 0xfffffffc = BitVec.ofNat 32 (pc - pc % 4) := by
  have haligned : pc - pc % 4 = 2 ^ 2 * (pc >>> 2) := by
    rw [Nat.shiftRight_eq_div_pow]
    omega
  refine BitVec.eq_of_getLsbD_eq fun i hi => ?_
  rw [BitVec.getLsbD_and, getLsbD_align i hi, haligned, BitVec.getLsbD_ofNat, BitVec.getLsbD_ofNat, Nat.testBit_two_pow_mul,
    Nat.testBit_shiftRight, Bool.and_assoc]
  by_cases h : 2 ≤ i
  · rw [Nat.add_sub_cancel' h, decide_eq_true h, Bool.and_true, Bool.true_and]
  · rw [decide_eq_false h, Bool.and_false, Bool.false_and]

variable {operand : Operand} {size : AccessSize} {pc : Nat}

/-- Addresses are locations modulo the size of the address space. -/
theorem State.address_eq (st : State) (pc : Nat) (size : AccessSize) (operand : Operand) :
    st.address (BitVec.ofNat 32 pc) size operand =
      (operand.location (fun n => (st.named n).toNat) pc size).map (BitVec.ofInt 32) := by
  have hword (v : BitVec 32) : BitVec.ofInt 32 v.toNat = v := by rw [BitVec.ofInt_natCast, BitVec.ofNat_toNat, BitVec.setWidth_eq]
  have hnat (n : Nat) : BitVec.ofInt 32 n = BitVec.ofNat 32 n := BitVec.ofInt_natCast 32 n
  cases operand with
  | indirect n | postInc n | preDec n => exact congrArg some (hword _).symm
  | displaced n disp | gbrDisp disp =>
    rw [State.address, Operand.location, Option.map_map]
    refine congrArg (Option.map · size.bytes?) (funext fun bytes => ?_)
    rw [Function.comp, BitVec.ofInt_add, hword, ← Int.natCast_mul, hnat]
  | indexed n | gbrIndexed =>
    refine congrArg some ?_
    rw [BitVec.ofInt_add, hword, hword]
  | pcDisp disp =>
    rw [State.address, Operand.location, Option.map_map]
    refine congrArg (Option.map · size.bytes?) (funext fun bytes => ?_)
    rw [Function.comp, BitVec.ofInt_add, BitVec.ofInt_add, hnat, ← Int.natCast_mul, hnat, ofNat_and_align]
    split <;> rfl
  | pcRel8 disp | pcRel12 disp =>
    refine congrArg some ?_
    rw [ofInt_signExtend, BitVec.ofInt_add, BitVec.ofInt_add, hnat]
    rfl
  | pcReg n =>
    refine congrArg some ?_
    rw [BitVec.ofInt_add, BitVec.ofInt_add, hword, hnat]
    rfl
  | reg n | immU v | immS v => rfl

/-! ## Outcomes -/

/-- The modes of the operands that are values. -/
def valueModes : List AddressingMode := [.regDirect, .immU, .immS]

/-- The modes whose displacements count accesses. -/
def scaledModes : List AddressingMode := [.regIndirectDisp, .gbrIndirectDisp, .pcRelativeDisp]

theorem effectiveAddress_of_value (h : operand.mode ∈ valueModes) : effectiveAddress operand size pc = .ok none := by
  cases operand with
  | reg n | immU v | immS v => rfl
  | _ => exact absurd h (by simp [valueModes, Operand.mode])

/-- A register that does not exist is refused before the size is looked at. -/
theorem effectiveAddress_invalidRegister (hmode : operand.mode ∉ valueModes) {n : Nat} (h : operand.register? = some n)
    (hn : regCount ≤ n) : effectiveAddress operand size pc = .error (.invalidRegister n) := by
  unfold effectiveAddress
  cases operand with
  | indirect k | postInc k | preDec k | displaced k disp | pcReg k =>
    obtain rfl : k = n := Option.some.inj h
    dsimp only
    rw [getReg_error hn]
    rfl
  | indexed k =>
    obtain rfl : k = n := Option.some.inj h
    obtain ⟨e₀, hget₀, -⟩ := exists_getReg r0 (by decide)
    dsimp only
    rw [getReg_error hn, hget₀]
    rfl
  | gbrDisp disp | gbrIndexed | pcDisp disp | pcRel8 disp | pcRel12 disp => cases h
  | reg k | immU v | immS v => exact absurd (by simp [valueModes, Operand.mode]) hmode

/-- An access without a size has no unit for its displacement. -/
theorem effectiveAddress_invalidSize (hmode : operand.mode ∈ scaledModes)
    (hregs : ∀ n, operand.register? = some n → n < regCount) :
    effectiveAddress operand .unsized pc = .error (.invalidSize .unsized) := by
  unfold effectiveAddress
  cases operand with
  | displaced n disp =>
    obtain ⟨e, hget, -⟩ := exists_getReg n (hregs n rfl)
    dsimp only
    rw [hget]
    rfl
  | gbrDisp disp =>
    obtain ⟨e, hget, -⟩ := exists_getReg gbr (by decide)
    dsimp only
    rw [hget]
    rfl
  | pcDisp disp => rfl
  | _ => exact absurd hmode (by simp [scaledModes, Operand.mode])

/-- Displacements need a unit, and nothing else can be missing from a location. -/
theorem exists_location (reg : Nat → Int) (pc : Nat) (hmode : operand.mode ∉ valueModes)
    (hsize : ¬ (operand.mode ∈ scaledModes ∧ size = .unsized)) : ∃ z, operand.location reg pc size = some z := by
  have hunit (h : operand.mode ∈ scaledModes) : ∃ bytes, size.bytes? = some bytes := by
    cases size with
    | unsized => exact absurd ⟨h, rfl⟩ hsize
    | byte | word | long => exact ⟨_, rfl⟩
  cases operand with
  | displaced n disp | gbrDisp disp | pcDisp disp =>
    obtain ⟨bytes, hbytes⟩ := hunit (by simp [scaledModes, Operand.mode])
    exact ⟨_, Option.map_eq_some_iff.2 ⟨bytes, hbytes, rfl⟩⟩
  | indirect n | postInc n | preDec n | indexed n | gbrIndexed | pcRel8 disp | pcRel12 disp | pcReg n => exact ⟨_, rfl⟩
  | reg n | immU v | immS v => exact absurd (by simp [valueModes, Operand.mode]) hmode

/-- Every other operand has an expression, whose value is its location in every state. -/
theorem exists_effectiveAddress_location (x : Frame) (hmode : operand.mode ∉ valueModes)
    (hregs : ∀ n, operand.register? = some n → n < regCount) (hsize : ¬ (operand.mode ∈ scaledModes ∧ size = .unsized)) :
    ∃ e z, effectiveAddress operand size pc = .ok (some e) ∧
      operand.location (fun n => (x.toState.named n).toNat) pc size = some z ∧ Evals x e (.word (BitVec.ofInt 32 z)) := by
  obtain ⟨z, hz⟩ := exists_location (fun n => (x.toState.named n).toNat) pc hmode hsize
  have haddr : x.toState.address (BitVec.ofNat 32 pc) size operand = some (BitVec.ofInt 32 z) := by
    rw [State.address_eq, hz]
    rfl
  obtain ⟨e, heffective, he⟩ := exists_effectiveAddress pc hregs haddr
  exact ⟨e, z, heffective, hz, he x _ haddr⟩

end Cpu

open Cpu

/-- The address of every operand, at every access size and at every address of the instruction, in every state of the
interpreter. Registers and immediates have none. The others are refused if they name a register that does not exist, or have a
displacement that counts accesses of no size. What remains has an expression, and its value is the location of the operand
modulo 2^32, by the values that the registers read as. -/
theorem effective_addresses {vm : Vm} (h : vm.SetUpBy (.derive Cpu.profile)) :
    ∃ reg : Nat → BitVec 32, (∀ n < regCount, vm.Reads n (reg n)) ∧ ∀ (operand : Operand) (size : AccessSize) (pc : Nat),
      (effectiveAddress operand size pc = .ok none ↔ operand.mode ∈ [.regDirect, .immU, .immS]) ∧
      (operand.mode ∉ [.regDirect, .immU, .immS] →
        ((∃ cause, effectiveAddress operand size pc = .error cause) ↔
          (∃ n, operand.register? = some n ∧ regCount ≤ n) ∨
            operand.mode ∈ [.regIndirectDisp, .gbrIndirectDisp, .pcRelativeDisp] ∧ size = .unsized)) ∧
      ∀ e, effectiveAddress operand size pc = .ok (some e) →
        ∃ z, operand.location (fun n => (reg n).toNat) pc size = some z ∧
          ∀ {σ : Type} [Bus σ] (bus : σ), vm.eval e bus = .ok (.word (BitVec.ofInt 32 z)) bus := by
  refine ⟨vm.frame.toState.named, fun n hn => h.shows.reads hn, fun operand size pc => ?_⟩
  change (_ ↔ operand.mode ∈ valueModes) ∧ (operand.mode ∉ valueModes → (_ ↔ _ ∨ operand.mode ∈ scaledModes ∧ _)) ∧ _
  by_cases hvalue : operand.mode ∈ valueModes
  · have hnone : effectiveAddress operand size pc = .ok none := effectiveAddress_of_value hvalue
    refine ⟨⟨fun _ => hvalue, fun _ => hnone⟩, fun hmode => absurd hvalue hmode, fun e he => ?_⟩
    rw [hnone] at he
    cases he
  by_cases hrefused : (∃ n, operand.register? = some n ∧ regCount ≤ n) ∨ operand.mode ∈ scaledModes ∧ size = .unsized
  · obtain ⟨cause, hcause⟩ : ∃ cause, effectiveAddress operand size pc = .error cause := by
      by_cases hregs : ∀ n, operand.register? = some n → n < regCount
      · obtain ⟨n, hn, hlt⟩ | ⟨hscaled, rfl⟩ := hrefused
        · exact absurd (hregs n hn) (Nat.not_lt.2 hlt)
        · exact ⟨_, effectiveAddress_invalidSize hscaled hregs⟩
      · push Not at hregs
        obtain ⟨n, hn, hlt⟩ := hregs
        exact ⟨_, effectiveAddress_invalidRegister hvalue hn hlt⟩
    rw [hcause]
    exact ⟨⟨nofun, fun hmode => absurd hmode hvalue⟩, fun _ => ⟨fun _ => hrefused, fun _ => ⟨cause, rfl⟩⟩, nofun⟩
  · rw [not_or] at hrefused
    obtain ⟨hregs, hsize⟩ := hrefused
    have hregs (n : Nat) (hn : operand.register? = some n) : n < regCount := by
      by_contra hlt
      exact hregs ⟨n, hn, Nat.le_of_not_lt hlt⟩
    obtain ⟨e, z, heffective, hz, he⟩ := exists_effectiveAddress_location vm.frame hvalue hregs hsize
    rw [heffective]
    refine ⟨⟨nofun, fun hmode => absurd hmode hvalue⟩, fun _ => ⟨nofun, fun hrefused => ?_⟩, fun e' he' => ?_⟩
    · obtain ⟨n, hn, hlt⟩ | hscaled := hrefused
      · exact absurd (hregs n hn) (Nat.not_lt.2 hlt)
      · exact absurd hscaled hsize
    · cases he'
      exact ⟨z, hz, fun bus => he.eval bus h.shows⟩

/-- A raw field of which the low eight bits count, at an address of 33 bits: the target is 250 bytes below the end of the address
space. A register too many, and a displacement without a unit, are refused. -/
theorem effective_addresses_backwards :
    let vm := Cpu.initialVm true
    let bus := LinearMemory.zeros 4
    vm.SetUpBy (.derive Cpu.profile) ∧
      (∃ e, effectiveAddress (.pcRel8 0xff80) .word 0x100000002 = .ok (some e) ∧
        vm.eval e bus = .ok (.word 0xffffff06) bus) ∧
      (∃ cause, effectiveAddress (.indexed 34) .long 0 = .error cause) ∧
      ∃ cause, effectiveAddress (.gbrDisp 1) .unsized 0 = .error cause := by
  intro vm bus
  obtain ⟨before, hnew, hset⟩ := Cpu.setupBinding_eq true
  have hvm : vm.SetUpBy (.derive Cpu.profile) := Vm.SetUpBy.of_setupBinding hset (Nat.succ_pos 31)
  obtain ⟨reg, -, haddresses⟩ := effective_addresses hvm
  obtain ⟨e, he⟩ : ∃ e, effectiveAddress (.pcRel8 0xff80) .word 0x100000002 = .ok (some e) := ⟨_, rfl⟩
  obtain ⟨z, hz, heval⟩ := (haddresses _ _ _).2.2 e he
  cases hz
  exact ⟨hvm, ⟨e, he, heval bus⟩, ((haddresses _ _ _).2.1 (by decide)).2 (.inl ⟨34, rfl, Nat.le_refl 34⟩),
    ((haddresses _ _ _).2.1 (by decide)).2 (.inr ⟨by decide, rfl⟩)⟩

end SuperH
