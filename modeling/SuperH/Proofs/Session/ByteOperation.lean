import SuperH.Proofs.Lift.ByteOperation
import SuperH.Proofs.Session.Completes

/-!
# Reading and writing a byte of memory

* `byte_operation` : AND.B, OR.B, XOR.B and TST.B with an immediate, and TAS.B, in every session of the machine.
-/

namespace SuperH

open Cpu

namespace ByteOperation

theorem register_lt (op : ByteOperation) (k : Nat) (hk : op.target.register? = some k) : k < Cpu.regCount := by
  cases op with
  | testAndSet n =>
    cases hk
    exact Nat.lt_trans n.isLt (by decide)
  | _ => cases hk

/-- There is an expression for the address of the byte, which no instruction changes. -/
theorem exists_addressExpr (op : ByteOperation) (pc : Nat) : ∃ a, Cpu.address op.target .byte pc = .ok a ∧
    ∀ x : Frame, Evals x a (.word (op.address x.toState)) :=
  exists_address_of_forall pc op.register_lt fun st => op.address_eq st (BitVec.ofNat 32 pc)

end ByteOperation

variable {bigEndian : Bool} {s : Session}

/-- If the byte is mapped, the call answers, leaves the result of the operation in its place and the condition in T, and changes
no other byte, register or flag but the program counter. If it is not, the call fails there, and changes neither the registers
nor the memory. -/
theorem byte_operation (hs : s.Reachable bigEndian) (op : ByteOperation) {size : AccessSize} (hsize : op.Sized size)
    (opcode : Nat) (mem : LinearMemory) :
    let st := s.regs.state
    let insn : Insn := ⟨op.mnemonic, op.operands, size, opcode⟩
    let addr := op.address st
    let b := Bus.byteAt mem addr
    (Bus.Mapped mem addr → ∃ mem',
      s.Completes insn mem mem' [Flag.t.var] (fun st' => st'.flag .t = op.condition b (st.flag .t)) ∧
        Bus.byteAt mem' addr = op.result b ∧ Bus.ChangesOnly mem mem' addr 1) ∧
    (¬ Bus.Mapped mem addr → ∃ cause, Bus.read8 addr mem = .error cause mem ∧ s.Stops insn mem (.bus addr cause)) := by
  intro st insn addr b
  have hlive := hs.live
  have hpc := hlive.pc_eq
  generalize BitVec.ofNat 32 (s.regs.content pcReg) = pc at hpc
  obtain ⟨a, haddress, ha⟩ := op.exists_addressExpr pc.toNat
  have hlift := op.lift_eq_effect hsize haddress opcode (st.flag .md)
  have hsetUp : SetUp bigEndian (loadedVm bigEndian s.regs) := attached_loadedVm.toSetUp
  have hshows := shows_loadedVm bigEndian hlive.profile
  have hbranches : insn.mnemonic.branches = false := by cases op <;> rfl
  refine ⟨fun hmapped => ?_, fun hmapped => ?_⟩
  · obtain ⟨vm, mem', y, hexec, hvm, hstate, hflag, hbyte, hmem⟩ := op.exec_of_mapped hsetUp hshows ha hmapped
    exact ⟨mem', completes_of_exec hlive hbranches hpc hlift hexec hvm hstate hflag, hbyte, hmem⟩
  · obtain hread | ⟨cause, hcause⟩ := mem.steady addr
    · exact absurd hread hmapped
    · exact ⟨cause, hcause, stops_of_exec hlive hpc hlift (op.exec_error hsetUp hshows (ha _) hcause)⟩

/-- With bank 1 in use TAS.B @R1 finds a byte zero and sets its highest bit, and fails past the end of the memory. -/
theorem testAndSet_byte :
    let regs := final (RegisterFile.set "sr" 0x60000000 (RegisterFile.zeros Cpu.profile))
    let s : Session := ⟨Cpu.initialVm true, final (RegisterFile.set "r1b" 2 regs), lift⟩
    let insn : Insn := ⟨.tas, [.indirect 1], .byte, 0x411b⟩
    s.Reachable true ∧ (ByteOperation.testAndSet 1).Sized .byte ∧
      (∃ mem', s.Completes insn (LinearMemory.zeros 3) mem' [Flag.t.var] (fun st' => st'.flag .t = true) ∧
        Bus.byteAt mem' 2 = 0x80) ∧
      ∃ cause, s.Stops insn (LinearMemory.zeros 2) (.bus 2 cause) := by
  intro regs s insn
  have hs : s.Reachable true := (Session.Reachable.start (Session.sh4_eq true)).write (by decide +kernel)
  have hr1 : s.regs.state.reg 1 = 2 := by decide +kernel
  -- with the registers in sight the call would be evaluated
  clear_value s
  let op : ByteOperation := .testAndSet 1
  have hsize : op.Sized .byte := trivial
  have haddress : op.address s.regs.state = 2 := hr1
  have hbyte : Bus.byteAt (LinearMemory.zeros 3) 2 = 0 := by decide +kernel
  refine ⟨hs, hsize, ?_, ?_⟩
  · obtain ⟨hcompletes, -⟩ := byte_operation hs op hsize 0x411b (LinearMemory.zeros 3)
    rw [haddress, hbyte] at hcompletes
    obtain ⟨mem', hcall, hresult, -⟩ := hcompletes (LinearMemory.mapped_of_lt rfl (by decide))
    exact ⟨mem', hcall, hresult⟩
  · obtain ⟨-, hstops⟩ := byte_operation hs op hsize 0x411b (LinearMemory.zeros 2)
    rw [haddress] at hstops
    have hmissing : ¬ Bus.Mapped (LinearMemory.zeros 2) 2 := by
      rw [LinearMemory.mapped_iff]
      rintro ⟨off, hoff⟩
      cases hoff
    obtain ⟨cause, -, hstops⟩ := hstops hmissing
    exact ⟨cause, hstops⟩

end SuperH
