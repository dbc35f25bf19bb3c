import SuperH.Proofs.Lift.Soundness
import SuperH.Proofs.Lift.Stores
import SuperH.Proofs.Session.Live

/-!
# Stores cut short

The interpreter stores byte by byte, while one access to a linear memory is checked as a whole.

* `torn_store` : a call that fails has written nothing, or the beginning of one store;
* `store_cut_at_end` : a store over the end of the memory, of which the mapped bytes are written.
-/

namespace SuperH

open Vm (StoredFirst)

/-- A call that ends in a trap other than an exception leaves a linear memory as it was, or with the first bytes of one
store. If these are not all, the trap reports the next one, which is not mapped. They are all only for DT, which reads
its operand once more, or if the instruction has an access size that does not fit it. -/
theorem torn_store {bigEndian : Bool} {s : Session} (hs : s.Reachable bigEndian) {insn : Insn} {mem : LinearMemory}
    {trap : Trap} {t : Computer LinearMemory} (hcall : Computer.execute insn ⟨s, mem⟩ = .error (.error trap) t)
    (htrap : ∀ pc name, trap ≠ .exception pc name) :
    t.bus = mem ∨ ∃ n addr bytes, StoredFirst n addr bytes mem t.bus ∧
      (n < bytes.length → ∃ cause, mem.offset (addr + BitVec.ofNat 32 n) 1 = .error cause ∧
        trap = .vm (.bus (addr + BitVec.ofNat 32 n) cause)) ∧
      (insn.SizeFits → insn.mnemonic ≠ .dt → n < bytes.length) := by
  rw [hs.live.execute_eq] at hcall
  dsimp only at hcall
  cases hlift : Cpu.liftFor (Cpu.loadedVm bigEndian s.regs) insn with
  | error cause =>
    rw [hlift] at hcall
    cases hcall
    exact .inl rfl
  | ok lifted =>
    rw [hlift] at hcall
    dsimp only at hcall
    let m₀ : Machine LinearMemory := ⟨Cpu.loadedVm bigEndian s.regs, mem⟩
    have hlifted := Cpu.liftFor_eq_ok.1 hlift
    have hwrites := Machine.step_storesOnce (lift_storesOnce hlifted) insnBytes mem m₀ rfl
    cases hstep : Machine.step lifted insnBytes m₀ with
    | ok u m =>
      rw [hstep] at hcall
      dsimp only at hcall
      split at hcall
      · cases hcall
        exact absurd rfl (htrap _ _)
      · cases hcall
    | error f m =>
      rw [hstep] at hcall hwrites
      obtain ⟨hf, rfl⟩ := EStateM.Result.error.inj hcall
      have htorn : Vm.Torn _ mem f m.bus := hwrites
      refine htorn.imp_right fun ⟨n, addr, bytes, hstored, hcut, hall⟩ => ⟨n, addr, bytes, hstored, ?_, ?_⟩
      · intro hn
        obtain ⟨cause, hnext, rfl⟩ := hcut hn
        exact ⟨cause, hnext, (Failure.error.inj hf).symm⟩
      · intro hsize hdt
        have hbus := Machine.step_sound (lift_sorted hsize hlifted) insnBytes m₀ (Cpu.ready_loadedVm.typed _)
        rw [hstep] at hbus
        apply Nat.lt_of_le_of_ne hstored.le
        intro hn
        exact hdt (eq_of_beq (hall hn hbus))

/-- A long word stored two bytes before the end of the memory. -/
theorem torn_store_at_end :
    let regs := RegisterFile.zeros Cpu.profile
    let s : Session :=
      ⟨Cpu.initialVm false, final (RegisterFile.set "r1" 4 (final (RegisterFile.set "r0" 0x04030201 regs))), lift⟩
    let mem := LinearMemory.zeros 6
    ∃ t, Computer.execute ⟨.mov, [.reg 0, .indirect 1], .long, 0x2102⟩ ⟨s, mem⟩ =
        .error (.error (.vm (.bus 6 (.outside 6 1 6)))) t ∧
      ∃ n addr bytes, StoredFirst n addr bytes mem t.bus ∧ n < bytes.length ∧ addr + BitVec.ofNat 32 n = 6 := by
  intro regs s mem
  have hs : s.Reachable false := (Session.Reachable.start (Session.sh4_eq false)).write (by decide +kernel)
  have hsize : Insn.SizeFits ⟨.mov, [.reg 0, .indirect 1], .long, 0x2102⟩ := fun _ => .inr rfl
  have hout : outcome (Computer.execute ⟨.mov, [.reg 0, .indirect 1], .long, 0x2102⟩ ⟨s, mem⟩) =
      .error (.error (.vm (.bus 6 (.outside 6 1 6)))) := by decide +kernel
  have hbus : (final (Computer.execute ⟨.mov, [.reg 0, .indirect 1], .long, 0x2102⟩ ⟨s, mem⟩)).bus ≠ mem := by
    decide +kernel
  have hcall := eq_error_iff.2 ⟨hout, rfl⟩
  refine ⟨_, hcall, ?_⟩
  obtain ⟨n, addr, bytes, hstored, hcut, hall⟩ := (torn_store hs hcall nofun).resolve_left hbus
  have hn := hall hsize nofun
  obtain ⟨cause, -, htrap⟩ := hcut hn
  injection htrap with htrap
  injection htrap with haddr
  exact ⟨n, addr, bytes, hstored, hn, haddr.symm⟩

/-- The first half of the long word is in the memory, while the memory itself refuses such an access as a whole. -/
theorem store_cut_at_end :
    let regs := RegisterFile.zeros Cpu.profile
    let s : Session :=
      ⟨Cpu.initialVm false, final (RegisterFile.set "r1" 4 (final (RegisterFile.set "r0" 0x04030201 regs))), lift⟩
    let mem := LinearMemory.zeros 6
    s.Reachable false ∧
      (∃ t, Computer.execute ⟨.mov, [.reg 0, .indirect 1], .long, 0x2102⟩ ⟨s, mem⟩ =
        .error (.error (.vm (.bus 6 (.outside 6 1 6)))) t ∧ t.bus = { mem with bytes := #[0, 0, 0, 0, 1, 2] }) ∧
      Bus.write32 4 0x04030201 mem = .error (.outside 4 4 6) mem := by
  intro regs s mem
  have hs : s.Reachable false := (Session.Reachable.start (Session.sh4_eq false)).write (by decide +kernel)
  have hout : outcome (Computer.execute ⟨.mov, [.reg 0, .indirect 1], .long, 0x2102⟩ ⟨s, mem⟩) =
      .error (.error (.vm (.bus 6 (.outside 6 1 6)))) := by decide +kernel
  have hbus : (final (Computer.execute ⟨.mov, [.reg 0, .indirect 1], .long, 0x2102⟩ ⟨s, mem⟩)).bus =
      { mem with bytes := #[0, 0, 0, 0, 1, 2] } := by decide +kernel
  exact ⟨hs, ⟨_, eq_error_iff.2 ⟨hout, rfl⟩, hbus⟩, rfl⟩

/-- DT on a long word with a step: it is stored whole, and the next one cannot be read. -/
example :
    let s : Session := ⟨Cpu.initialVm false, .zeros Cpu.profile, lift⟩
    let call := Computer.execute ⟨.dt, [.postInc 1], .long, 0x4110⟩ ⟨s, LinearMemory.zeros 4⟩
    outcome call = .error (.error (.vm (.bus 4 (.outside 4 1 4)))) ∧
      (final call).bus.bytes = #[0xff, 0xff, 0xff, 0xff] := by
  decide +kernel

end SuperH
