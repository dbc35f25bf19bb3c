import SuperH.Proofs.Lift.PreDecrement
import SuperH.Proofs.Session.Forward
import SuperH.Proofs.Session.Untouched

/-!
# Storing to the address below a register

* `predecrement_store` : MOV.B, MOV.W and MOV.L of a register to `@-Rn`, in every session of the machine. The stored value
  is read after the register has been moved down, so a register that is stored to the address below itself is stored as it
  is afterwards.
-/

namespace SuperH

open Cpu

/-- A word less the number of bytes of an access differs from it in its low bytes. -/
theorem AccessSize.setWidth_sub_ne {size : AccessSize} {bytes : Nat} (h : size.bytes? = some bytes) (v : BitVec 32) :
    (v - BitVec.ofNat 32 bytes).setWidth (bytes * 8) ≠ v.setWidth (bytes * 8) := by
  intro heq
  have hlow : (v - BitVec.ofNat 32 bytes).toNat % 2 ^ (bytes * 8) = v.toNat % 2 ^ (bytes * 8) := by
    rw [← BitVec.toNat_setWidth, heq, BitVec.toNat_setWidth]
  rw [BitVec.toNat_sub, BitVec.toNat_ofNat] at hlow
  cases size with
  | unsized => cases h
  | byte | word | long =>
    cases h
    omega

variable {bigEndian : Bool} {s : Session}

/-- The call answers, moves Rn down by the size of the access, stores the low bytes of Rm there in the byte order of the
session, and changes no other register, flag or byte. The value is the one that Rm had before the call if and only if Rm
is another register than Rn. -/
theorem predecrement_store (hs : s.Reachable bigEndian) {size : AccessSize} {bytes : Nat} (hsize : size.bytes? = some bytes)
    (m n : Fin 16) (opcode : Nat) {mem : LinearMemory}
    (hmapped : ∀ i < bytes, Bus.Mapped mem (s.regs.state.reg n - BitVec.ofNat 32 bytes + BitVec.ofNat 32 i)) :
    let addr := s.regs.state.reg n - BitVec.ofNat 32 bytes
    ∃ s' mem', Computer.execute ⟨.mov, [.reg m, .preDec n], size, opcode⟩ ⟨s, mem⟩ = .ok () ⟨s', mem'⟩ ∧
      Bus.element mem' bigEndian bytes addr = (if m = n then addr else s.regs.state.reg m).setWidth (bytes * 8) ∧
      (Bus.element mem' bigEndian bytes addr = (s.regs.state.reg m).setWidth (bytes * 8) ↔ m ≠ n) ∧
      Bus.ChangesOnly mem mem' addr bytes ∧ s'.regs.state = s.regs.state.setReg n addr ∧
      (∀ name ∉ ["pc", (State.generalVar s.regs.state.bank1 n).1], s'.regs.getBits name = s.regs.getBits name) ∧
      ∃ pc, s.pc = .ok pc ∧ s'.pc = .ok (pc + 2) := by
  intro addr
  obtain ⟨s', mem', hcall, -, hstate, hchange, hstored⟩ := execute_moveBelow hs.live hsize m n opcode hmapped
  have hmoved : s'.regs.state = s.regs.state.setReg n addr := hstate
  have hvalue : (s.regs.state.retreat n bytes).reg m = if m = n then addr else s.regs.state.reg m := State.reg_setReg ..
  rw [hvalue] at hstored
  refine ⟨s', mem', hcall, hstored, ?_, hchange, hmoved, fun name hname => ?_, exists_pc_execute hs.live rfl hcall⟩
  · rw [hstored]
    by_cases hmn : m = n
    · subst hmn
      rw [if_pos rfl]
      exact ⟨fun h => absurd h (AccessSize.setWidth_sub_ne hsize _), fun h => absurd rfl h⟩
    · rw [if_neg hmn]
      exact iff_of_true rfl hmn
  · simp only [List.mem_cons, List.not_mem_nil, or_false, not_or] at hname
    obtain ⟨hpc, hother⟩ := hname
    refine getBits_execute hs.live hcall hpc (fun var hvar => ?_) fun _ => ?_
    · rw [hmoved]
      exact State.word_setWord_of_ne _ (fun heq => hother (hvar.symm.trans (congrArg Subtype.val heq))) _
    · rw [hmoved]
      rfl

/-- The low half of R1 is stored below R2 in the big-endian order, with bank 1 in use. -/
theorem predecrement_store_half :
    let regs := final (RegisterFile.set "sr" 0x60000000 (RegisterFile.zeros Cpu.profile))
    let s : Session :=
      ⟨Cpu.initialVm true, final (RegisterFile.set "r1b" 0x12345678 (final (RegisterFile.set "r2b" 10 regs))), lift⟩
    s.Reachable true ∧
      ∃ s' mem', Computer.execute ⟨.mov, [.reg 1, .preDec 2], .word, 0x2215⟩ ⟨s, LinearMemory.zeros 16⟩ = .ok () ⟨s', mem'⟩ ∧
        Bus.element mem' true 2 8 = 0x5678 ∧ s'.regs.state.word (State.generalVar true 2) = 8 ∧
        s'.regs.getBits "r2" = s.regs.getBits "r2" ∧ s'.regs.getBits "sr" = s.regs.getBits "sr" := by
  intro regs s
  have hs : s.Reachable true := (Session.Reachable.start (Session.sh4_eq true)).write (by decide +kernel)
  have hbank : s.regs.state.bank1 = true := by decide +kernel
  have hr1 : s.regs.state.reg 1 = 0x12345678 := by decide +kernel
  have hr2 : s.regs.state.reg 2 = 10 := by decide +kernel
  -- with the registers in sight the call would be evaluated
  clear_value s
  have hmapped : ∀ i < 2, Bus.Mapped (LinearMemory.zeros 16) (s.regs.state.reg 2 - BitVec.ofNat 32 2 + BitVec.ofNat 32 i) := by
    intro i hi
    have hlt : (10 - BitVec.ofNat 32 2 + BitVec.ofNat 32 i : BitVec 32).toNat < 16 := by bv_omega
    exact hr2 ▸ LinearMemory.mapped_of_lt rfl hlt
  have hsize : AccessSize.word.bytes? = some 2 := rfl
  obtain ⟨s', mem', hcall, hvalue, -, -, hstate, hkept, -⟩ := predecrement_store hs hsize 1 2 0x2215 hmapped
  rw [hr1, hr2] at hvalue
  rw [hr2] at hstate
  rw [hbank] at hkept
  refine ⟨hs, s', mem', hcall, hvalue, ?_, hkept "r2" (by decide), hkept "sr" (by decide)⟩
  rw [hstate, State.setReg, hbank, State.word_setWord_self]
  rfl

/-- R1 is 8 before the call, but 4 is stored below it, which it is afterwards. -/
theorem predecremented_value_stored :
    let s : Session := ⟨Cpu.initialVm false, final (RegisterFile.set "r1" 8 (RegisterFile.zeros Cpu.profile)), lift⟩
    s.Reachable false ∧ s.regs.state.reg 1 = 8 ∧
      (∀ i < 4, Bus.Mapped (LinearMemory.zeros 16) (s.regs.state.reg 1 - 4 + BitVec.ofNat 32 i)) ∧
      ∃ s' mem', Computer.execute ⟨.mov, [.reg 1, .preDec 1], .long, 0x2116⟩ ⟨s, LinearMemory.zeros 16⟩ = .ok () ⟨s', mem'⟩ ∧
        Bus.element mem' false 4 4 = 4 := by
  intro s
  have hs : s.Reachable false := (Session.Reachable.start (Session.sh4_eq false)).write (by decide +kernel)
  have hr1 : s.regs.state.reg 1 = 8 := by decide +kernel
  clear_value s
  have hmapped : ∀ i < 4, Bus.Mapped (LinearMemory.zeros 16) (s.regs.state.reg 1 - 4 + BitVec.ofNat 32 i) := by
    intro i hi
    have hlt : (8 - 4 + BitVec.ofNat 32 i : BitVec 32).toNat < 16 := by bv_omega
    exact hr1 ▸ LinearMemory.mapped_of_lt rfl hlt
  have hsize : AccessSize.long.bytes? = some 4 := rfl
  obtain ⟨s', mem', hcall, -, -, -, hstored⟩ := execute_moveBelow hs.live hsize 1 1 0x2116 hmapped
  rw [State.retreat, State.reg_setReg, if_pos rfl, hr1] at hstored
  exact ⟨hs, hr1, hmapped, s', mem', hcall, hstored⟩

end SuperH
