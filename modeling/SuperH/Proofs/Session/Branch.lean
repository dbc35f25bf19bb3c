import SuperH.Memory.Linear
import SuperH.Proofs.Lift.Branch
import SuperH.Proofs.Session.Completes

/-!
# Branches in sessions

* `pc_execute_of_exec` : where an effect takes the program counter of a session;
* `Jumps.execute`, `Branch.execute` : a call of an instruction whose effect jumps, or may jump, and of a branch;
* `branches_everywhere` : every branch in every session of the machine, and RTS after every call.
-/

namespace SuperH

open Cpu

variable {σ : Type} [Bus σ] {bigEndian : Bool} {s : Session} {insn : Insn} {e : Effect} {vm : Vm} {bus bus' : σ}

/-- The program counter is where the effect jumps to, or behind the instruction. -/
theorem pc_execute_of_exec (hs : s.Live bigEndian) (hlift : liftFor (loadedVm bigEndian s.regs) insn = .ok (.effect e))
    (hexec : Machine.exec e ⟨loadedVm bigEndian s.regs, bus⟩ = .ok () ⟨vm, bus'⟩) {t : Computer σ}
    (hcall : Computer.execute insn ⟨s, bus⟩ = .ok () t) :
    t.session.regs.content pcReg = (if vm.jumped then vm.pc else vm.pc + .ofNat 32 insnBytes).toNat := by
  obtain ⟨lifted, m, hlifted, hstep, rfl⟩ := hs.execute_eq_ok hcall
  have hattached := ready_loadedVm.step_lifted hlifted insnBytes bus
  rw [hstep] at hattached
  obtain rfl : .effect e = lifted := Except.ok.inj (hlift.symm.trans hlifted)
  obtain ⟨-, hmoved⟩ := step_eq_of_exec (quiet_of_liftFor hlift) hexec insnBytes
  obtain ⟨-, rfl⟩ := EStateM.Result.ok.inj (hstep.symm.trans hmoved)
  show (writeBack _ s.regs).content pcReg = _
  rw [Attached.content_pc_writeBack hattached hs.profile]
  dsimp only
  split <;> rfl

/-- The address behind the instruction that an interpreter is loaded for. -/
theorem pc_loadedVm_add (hs : s.Live bigEndian) {pc : Address} (hpc : s.pc = .ok pc) :
    (loadedVm bigEndian s.regs).pc + .ofNat 32 insnBytes = .ofBitVec (pc + 2) Expr.word_pos := by
  obtain rfl : BitVec.ofNat 32 (s.regs.content pcReg) = pc := Except.ok.inj (hs.pc_eq.symm.trans hpc)
  have hadd := Bits.add_ofBitVec (BitVec.ofNat 32 (s.regs.content pcReg)) 2 (h := Expr.word_pos)
  rw [Bits.ofBitVec_ofNat] at hadd
  exact Except.ok.inj hadd

/-- An instruction that jumps answers, and the program goes on where it has jumped to, or else behind it. -/
theorem Cpu.Jumps.execute {y : Frame} {target? : Option Address} (h : Jumps ⟨s.regs.state, []⟩ e y target?)
    (hs : s.Live bigEndian) {pc : Address} (hpc : s.pc = .ok pc)
    (hlift : lift insn pc.toNat (s.regs.state.flag .md) = .ok (.effect e)) (bus : σ) :
    ∃ s', Computer.execute insn ⟨s, bus⟩ = .ok () ⟨s', bus⟩ ∧ s'.Live bigEndian ∧ s'.regs.state = y.toState ∧
      s'.pc = .ok (target?.getD (pc + 2)) := by
  have hfor := liftFor_of_lift hs hpc hlift
  obtain ⟨vm, hexec, hvm, htarget, hjumped⟩ := h.exec bus (shows_loadedVm bigEndian hs.profile) rfl rfl
  obtain ⟨s', hcall, hlive, hstate⟩ := execute_of_lifted hs hfor hexec hvm
  have hnext : (if vm.jumped then vm.pc else vm.pc + .ofNat 32 insnBytes) = .ofBitVec (target?.getD (pc + 2)) Expr.word_pos := by
    rw [hjumped, htarget]
    cases target? with
    | some addr => rfl
    | none => exact pc_loadedVm_add hs hpc
  refine ⟨s', hcall, hlive, hstate, hlive.pc_eq.trans (congrArg Except.ok ?_)⟩
  rw [pc_execute_of_exec hs hfor hexec hcall, hnext, Bits.toNat_ofBitVec, BitVec.ofNat_toNat, BitVec.setWidth_eq]

/-- A branch answers, and leads to its result and to where the program goes on. -/
theorem Branch.execute (b : Branch) (hs : s.Live bigEndian) {pc : Address} (hpc : s.pc = .ok pc) (size : AccessSize)
    (opcode : Nat) (bus : σ) :
    ∃ s', Computer.execute (b.insn size opcode) ⟨s, bus⟩ = .ok () ⟨s', bus⟩ ∧ s'.Live bigEndian ∧
      s'.regs.state = b.result s.regs.state pc ∧ s'.pc = .ok (b.next s.regs.state pc) := by
  obtain ⟨a, ha, hlift⟩ := b.exists_lift pc.toNat size opcode (s.regs.state.flag .md)
  have hjumps := b.jumps s.regs.state ha
  rw [BitVec.ofNat_toNat, BitVec.setWidth_eq] at hjumps
  obtain ⟨s', hcall, hlive, hstate, hnext⟩ := hjumps.execute hs hpc hlift bus
  refine ⟨s', hcall, hlive, hstate, hnext.trans (congrArg Except.ok ?_)⟩
  rw [Branch.next]
  split <;> rfl

/-- Every branch answers in every session of the machine. The program goes on at the target if the branch is taken, and behind it
if not; calls change PR, and no branch changes anything else but the program counter. RTS right after a call leads to the address
behind the delay slot of the call. -/
theorem branches_everywhere (hs : s.Reachable bigEndian) (b : Branch) (size : AccessSize) (opcode : Nat) (bus : σ) :
    ∃ pc s', s.pc = .ok pc ∧ Computer.execute (b.insn size opcode) ⟨s, bus⟩ = .ok () ⟨s', bus⟩ ∧
      s'.pc = .ok (b.next s.regs.state pc) ∧ s'.regs.state = b.result s.regs.state pc ∧
      s.regs.ChangesOnly s'.regs ("pc" :: b.changed) ∧
      (b.calls = true → ∀ (size' : AccessSize) (opcode' : Nat), ∃ s'',
        Computer.executeAll [b.insn size opcode, Branch.back.insn size' opcode'] ⟨s, bus⟩ = ([.ok (), .ok ()], ⟨s'', bus⟩) ∧
          s''.pc = .ok (pc + 4)) := by
  have hpc := hs.live.pc_eq
  generalize BitVec.ofNat 32 (s.regs.content pcReg) = pc at hpc
  obtain ⟨s', hcall, hlive, hstate, hnext⟩ := b.execute hs.live hpc size opcode bus
  have hchange := changesOnly_execute hs.live hcall (hstate ▸ b.changesOnly_result s.regs.state pc)
  refine ⟨pc, s', hpc, hcall, hnext, hstate, hchange, fun hcalls size' opcode' => ?_⟩
  -- RTS itself is a branch, from wherever the call has led to
  obtain ⟨s'', hreturn, -, -, hback⟩ := Branch.back.execute hlive hnext size' opcode' bus
  have hpr : s'.regs.state.word prVar = pc + 4 := by
    rw [hstate, Branch.result, hcalls]
    exact State.word_setWord_self ..
  refine ⟨s'', ?_, hback.trans (congrArg Except.ok hpr)⟩
  simp only [Computer.executeAll, hcall, final, hreturn]
  rfl

/-- At the last instruction of the address space, with bank 1 in use: BF with T clear goes on past the end, and so does RTS after
JSR to R1. -/
theorem branches_everywhere_wrapped :
    let regs := final (RegisterFile.set "sr" 0x60000000 (RegisterFile.zeros Cpu.profile))
    let s : Session :=
      ⟨Cpu.initialVm true, final (RegisterFile.set "pc" 0xfffffffe (final (RegisterFile.set "r1b" 0x1000 regs))), lift⟩
    let bus := LinearMemory.zeros 0
    let bf : Branch := .onCondition false false 0x17f
    let jsr : Branch := .toRegister true 1
    s.Reachable true ∧
      (∃ s', Computer.execute (bf.insn .word 0x8b7f) ⟨s, bus⟩ = .ok () ⟨s', bus⟩ ∧ s'.pc = .ok 0x100) ∧
      (∃ s', Computer.execute (jsr.insn .long 0x410b) ⟨s, bus⟩ = .ok () ⟨s', bus⟩ ∧ s'.pc = .ok 0x1000) ∧
      ∃ s', Computer.executeAll [jsr.insn .long 0x410b, Branch.back.insn .long 0x000b] ⟨s, bus⟩ =
        ([.ok (), .ok ()], ⟨s', bus⟩) ∧ s'.pc = .ok 2 := by
  intro regs s bus bf jsr
  have hs : s.Reachable true := (Session.Reachable.start (Session.sh4_eq true)).write (by decide +kernel)
  have hat : s.pc = .ok 0xfffffffe := by decide +kernel
  have ht : s.regs.state.flag .t = false := by decide +kernel
  have hr1 : s.regs.state.reg 1 = 0x1000 := by decide +kernel
  -- with the registers in sight the calls would be evaluated
  clear_value s
  obtain ⟨pc, s₁, hpc, hbf, hnext₁, -⟩ := branches_everywhere hs bf .word 0x8b7f bus
  obtain rfl : 0xfffffffe = pc := Except.ok.inj (hat.symm.trans hpc)
  obtain ⟨pc, s₂, hpc, hjsr, hnext₂, -, -, hreturn⟩ := branches_everywhere hs jsr .long 0x410b bus
  obtain rfl : 0xfffffffe = pc := Except.ok.inj (hat.symm.trans hpc)
  obtain ⟨s₃, hrun, hback⟩ := hreturn rfl .long 0x000b
  have htaken : bf.taken s.regs.state = true := beq_iff_eq.2 ht
  have hbfNext : bf.next s.regs.state 0xfffffffe = 0x100 := by
    rw [Branch.next, htaken]
    rfl
  exact ⟨hs, ⟨s₁, hbf, hbfNext ▸ hnext₁⟩, ⟨s₂, hjsr, hnext₂.trans (congrArg Except.ok hr1)⟩, s₃, hrun, hback⟩

end SuperH
