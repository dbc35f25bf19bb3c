import SuperH.Proofs.Cpu.Place

/-!
# Addresses of operands

* `State.named` : the value of the register that an index names, which an interpreter reads (`Vm.Reads`, `Shows.reads`);
* `State.address` : the address of a memory or branch operand, by the values of the registers and the address of the
  instruction. Addresses wrap around;
* `exists_effectiveAddress`, `exists_address`, `exists_address_of_forall` : the expression for the address of an operand, which
  has that value; `address_general` if it is in one of R0 to R15.
-/

namespace SuperH

namespace AccessSize

variable {size : AccessSize} {bytes : Nat}

theorem bytes_pos (h : size.bytes? = some bytes) : 0 < bytes * 8 := by
  cases size <;> cases h <;> decide

theorem bits_lt (h : size.bytes? = some bytes) : bytes * 8 < 2 ^ 32 := by
  cases size <;> cases h <;> decide

theorem bytes_lt (h : size.bytes? = some bytes) : bytes < 2 ^ 32 :=
  Nat.lt_of_le_of_lt (Nat.le_mul_of_pos_right bytes (by decide)) (bits_lt h)

end AccessSize

/-- There is an expression for the register that an index names, which has the value on every memory. -/
def Vm.Reads (vm : Vm) (index : Nat) (v : BitVec 32) : Prop :=
  ∃ e, Cpu.getReg index = .ok e ∧ ∀ {σ : Type} [Bus σ] (bus : σ), vm.eval e bus = .ok (.word v) bus

namespace Cpu

open SuperH.Expr SuperH.Effect

namespace State

variable (st : State)

def named (index : Nat) : BitVec 32 := (st.place index).value st

theorem named_general (n : Fin 16) : st.named n = st.reg n := by
  rw [named, place_general]
  rfl

/-- The address of an operand of the instruction at `pc`, if it has one and its displacement has a unit. Displacements count
accesses, and those of branches count words. An access of four bytes relative to the program counter is aligned. -/
def address (pc : Address) (size : AccessSize) : Operand → Option Address
  | .indirect n | .postInc n | .preDec n => some (st.named n)
  | .displaced n disp => size.bytes?.map fun bytes => st.named n + BitVec.ofNat 32 (disp * bytes)
  | .indexed n => some (st.named r0 + st.named n)
  | .gbrDisp disp => size.bytes?.map fun bytes => st.named gbr + BitVec.ofNat 32 (disp * bytes)
  | .gbrIndexed => some (st.named gbr + st.named r0)
  | .pcDisp disp => size.bytes?.map fun bytes =>
    (if size = .long then pc &&& 0xfffffffc else pc) + 4 + BitVec.ofNat 32 (disp * bytes)
  | .pcRel8 disp => some (pc + 4 + (BitVec.ofNat 8 disp).signExtend 32 <<< 1)
  | .pcRel12 disp => some (pc + 4 + (BitVec.ofNat 12 disp).signExtend 32 <<< 1)
  | .pcReg n => some (pc + 4 + st.named n)
  | .reg _ | .immU _ | .immS _ => none

end State

/-! ## The expression -/

variable {x : Frame} {e : Expr} {operand : Operand} {size : AccessSize} {bytes : Nat}

theorem accessBytes_eq (h : size.bytes? = some bytes) : accessBytes size = .ok bytes := by rw [accessBytes, h]

theorem accessBits_eq (h : size.bytes? = some bytes) : accessBits size = .ok (bytes * 8) := by
  rw [accessBits, AccessSize.bits?, h]
  rfl

/-- An operand whose address is in a register. -/
theorem address_general {n : Fin 16} (h : operand ∈ [.indirect n, .postInc n, .preDec n]) (size : AccessSize) (pc : Nat) :
    address operand size pc = .ok (generalStorage n).read := by
  have heffective : effectiveAddress operand size pc = .ok (some (generalStorage n).read) := by
    simp only [List.mem_cons, List.not_mem_nil, or_false] at h
    rcases h with rfl | rfl | rfl <;>
    · unfold effectiveAddress
      dsimp only
      rw [getReg_general]
      rfl
  rw [address, heffective]
  rfl

/-- A register that an index names is read as it is in the state. -/
theorem exists_getReg (index : Nat) (h : index < regCount) :
    ∃ e, getReg index = .ok e ∧ ∀ x : Frame, Evals x e (.word (x.toState.named index)) := by
  obtain ⟨p, hp⟩ := exists_storage h
  refine ⟨p.read, ?_, fun x => .place hp⟩
  rw [getReg_eq, hp]
  rfl

theorem Shows.reads {vm : Vm} (hx : Shows vm x) {index : Nat} (h : index < regCount) :
    vm.Reads index (x.toState.named index) := by
  obtain ⟨e, hget, he⟩ := exists_getReg index h
  exact ⟨e, hget, fun bus => (he x).eval bus hx⟩

/-- A register that an index names is set by an effect. -/
theorem exists_setReg (index : Nat) (h : index < regCount) (value : Expr) : ∃ e, setReg index value = .ok e := by
  obtain ⟨p, hp⟩ := exists_storage h
  refine ⟨p.write value, ?_⟩
  rw [setReg_eq, hp]
  rfl

theorem Evals.scaled (disp bytes : Nat) : Evals x ((word disp).mul (word bytes)) (.word (BitVec.ofNat 32 (disp * bytes))) := by
  rw [BitVec.ofNat_mul]
  exact (Evals.const disp word_pos).mul (.const bytes word_pos)

theorem Evals.afterFetch {pc : Address} (h : Evals x e (.word pc)) : Evals x (Cpu.afterFetch e) (.word (pc + 4)) :=
  h.add (.const 4 word_pos)

theorem Evals.branchOffset {bits : Nat} (disp : Nat) (h : 0 < bits) :
    Evals x (Cpu.branchOffset bits disp h) (.word ((BitVec.ofNat bits disp).signExtend 32 <<< 1)) := by
  have hone : Evals x (word 1) (.word 1) := .const 1 word_pos
  have hshl := ((Evals.const disp h).signed word_pos).shl hone
  exact hshl

variable (pc : Nat)

/-- An operand whose registers exist, and which has an address, has an expression for it, with that value in every state. -/
theorem exists_effectiveAddress {st : State} {addr : Address} (hregs : ∀ n, operand.register? = some n → n < regCount)
    (h : st.address (BitVec.ofNat 32 pc) size operand = some addr) :
    ∃ e, effectiveAddress operand size pc = .ok (some e) ∧
      ∀ (x : Frame) (a : Address), x.toState.address (BitVec.ofNat 32 pc) size operand = some a → Evals x e (.word a) := by
  have hpc (x : Frame) : Evals x (word pc) (.word (BitVec.ofNat 32 pc)) := .const pc word_pos
  unfold effectiveAddress
  cases operand with
  | indirect n | postInc n | preDec n =>
    obtain ⟨e, hget, he⟩ := exists_getReg n (hregs n rfl)
    dsimp only
    rw [hget]
    refine ⟨_, rfl, fun x a ha => ?_⟩
    cases ha
    exact he x
  | displaced n disp =>
    obtain ⟨bytes, hbytes, -⟩ := Option.map_eq_some_iff.1 h
    obtain ⟨e, hget, he⟩ := exists_getReg n (hregs n rfl)
    dsimp only
    rw [hget, accessBytes_eq hbytes]
    refine ⟨_, rfl, fun x a ha => ?_⟩
    rw [State.address, hbytes] at ha
    cases ha
    exact (he x).add (.scaled disp bytes)
  | indexed n =>
    obtain ⟨e, hget, he⟩ := exists_getReg n (hregs n rfl)
    obtain ⟨e₀, hget₀, he₀⟩ := exists_getReg r0 (by decide)
    dsimp only
    rw [hget, hget₀]
    refine ⟨_, rfl, fun x a ha => ?_⟩
    cases ha
    exact (he₀ x).add (he x)
  | gbrDisp disp =>
    obtain ⟨bytes, hbytes, -⟩ := Option.map_eq_some_iff.1 h
    obtain ⟨e, hget, he⟩ := exists_getReg gbr (by decide)
    dsimp only
    rw [hget, accessBytes_eq hbytes]
    refine ⟨_, rfl, fun x a ha => ?_⟩
    rw [State.address, hbytes] at ha
    cases ha
    exact (he x).add (.scaled disp bytes)
  | gbrIndexed =>
    obtain ⟨e, hget, he⟩ := exists_getReg gbr (by decide)
    obtain ⟨e₀, hget₀, he₀⟩ := exists_getReg r0 (by decide)
    dsimp only
    rw [hget, hget₀]
    refine ⟨_, rfl, fun x a ha => ?_⟩
    cases ha
    exact (he x).add (he₀ x)
  | pcDisp disp =>
    obtain ⟨bytes, hbytes, -⟩ := Option.map_eq_some_iff.1 h
    have hbase (x : Frame) : Evals x (if size = .long then (word pc).bitAnd (word 0xfffffffc) else word pc)
        (.word (if size = .long then BitVec.ofNat 32 pc &&& 0xfffffffc else BitVec.ofNat 32 pc)) := by
      split
      · exact (hpc x).bitAnd (.const 0xfffffffc word_pos)
      · exact hpc x
    dsimp only
    rw [accessBytes_eq hbytes]
    refine ⟨_, rfl, fun x a ha => ?_⟩
    rw [State.address, hbytes] at ha
    cases ha
    exact (hbase x).afterFetch.add (.scaled disp bytes)
  | pcRel8 disp | pcRel12 disp =>
    refine ⟨_, rfl, fun x a ha => ?_⟩
    cases ha
    exact (hpc x).afterFetch.add (.branchOffset disp (by decide))
  | pcReg n =>
    obtain ⟨e, hget, he⟩ := exists_getReg n (hregs n rfl)
    dsimp only
    rw [hget]
    refine ⟨_, rfl, fun x a ha => ?_⟩
    cases ha
    exact (hpc x).afterFetch.add (he x)
  | reg n | immU v | immS v => cases h

theorem exists_address {st : State} {addr : Address} (hregs : ∀ n, operand.register? = some n → n < regCount)
    (h : st.address (BitVec.ofNat 32 pc) size operand = some addr) :
    ∃ e, Cpu.address operand size pc = .ok e ∧
      ∀ (x : Frame) (a : Address), x.toState.address (BitVec.ofNat 32 pc) size operand = some a → Evals x e (.word a) := by
  obtain ⟨e, heffective, he⟩ := exists_effectiveAddress pc hregs h
  refine ⟨e, ?_, he⟩
  rw [Cpu.address, heffective]
  rfl

/-- An operand that has an address in every state, as a function of it. -/
theorem exists_address_of_forall {f : State → Address} (hregs : ∀ n, operand.register? = some n → n < regCount)
    (h : ∀ st : State, st.address (BitVec.ofNat 32 pc) size operand = some (f st)) :
    ∃ e, Cpu.address operand size pc = .ok e ∧ ∀ x : Frame, Evals x e (.word (f x.toState)) := by
  obtain ⟨e, haddress, he⟩ := exists_address pc hregs (h ⟨fun _ => 0, fun _ => false⟩)
  exact ⟨e, haddress, fun x => he x _ (h x.toState)⟩

end Cpu
end SuperH
