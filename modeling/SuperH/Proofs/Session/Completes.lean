import SuperH.Proofs.Session.Forward
import SuperH.Proofs.Session.Untouched

/-!
# Calls that complete and calls that stop

* `Session.Completes s insn bus bus' changed post` : the call answers, leaves the memory `bus'` and a state with `post`, goes
  to the next instruction, and changes no register beyond that but the named ones;
* `Session.CompletesAll s insns bus bus' changed post` : the same of calls in a row;
* `Session.Stops s insn bus cause` : the call fails and leaves the registers and the memory alone;
* `completes_of_exec`, `stops_of_exec` : such calls from the run of an effect at the program counter of the session;
* `Transforms.completes_of_sameMeaning`, `Transforms.completes` : such a call of an instruction that transforms states;
* `Transforms.completesAll` : such a run of instructions that transform states.
-/

namespace SuperH

open Cpu

variable {σ : Type} [Bus σ]

/-- The call answers and moves the program counter past the instruction. Other bits of the registers have the values that they
had, but those that belong to a named register. -/
def Session.Completes (s : Session) (insn : Insn) (bus bus' : σ) (changed : List String) (post : State → Prop) : Prop :=
  ∃ s' pc, Computer.execute insn ⟨s, bus⟩ = .ok () ⟨s', bus'⟩ ∧ post s'.regs.state ∧
    s.regs.ChangesOnly s'.regs ("pc" :: changed) ∧ s.pc = .ok pc ∧ s'.pc = .ok (pc + 2)

/-- The calls all answer and move the program counter past the instructions. Other bits of the registers have the values that
they had before the first call, but those that belong to a named register. -/
def Session.CompletesAll (s : Session) (insns : List Insn) (bus bus' : σ) (changed : List String) (post : State → Prop) :
    Prop :=
  ∃ s' pc, Computer.executeAll insns ⟨s, bus⟩ = (List.replicate insns.length (.ok ()), ⟨s', bus'⟩) ∧
    post s'.regs.state ∧ s.regs.ChangesOnly s'.regs ("pc" :: changed) ∧
    s.pc = .ok pc ∧ s'.pc = .ok (pc + BitVec.ofNat 32 (insnBytes * insns.length))

/-- The call fails in the interpreter, and leaves the registers and the memory alone. -/
def Session.Stops (s : Session) (insn : Insn) (bus : σ) (cause : VmError) : Prop :=
  ∃ s', Computer.execute insn ⟨s, bus⟩ = .error (.error (.vm cause)) ⟨s', bus⟩ ∧ s'.regs = s.regs

variable {bigEndian : Bool} {s : Session} {insn : Insn} {bus bus' : σ} {changed : List String} {post : State → Prop}

theorem Session.Completes.mono {post' : State → Prop} (h : s.Completes insn bus bus' changed post)
    (hpost : ∀ st, post st → post' st) : s.Completes insn bus bus' changed post' := by
  obtain ⟨s', pc, hcall, hst, hrest⟩ := h
  exact ⟨s', pc, hcall, hpost _ hst, hrest⟩

theorem Session.CompletesAll.mono {insns : List Insn} {post' : State → Prop} (h : s.CompletesAll insns bus bus' changed post)
    (hpost : ∀ st, post st → post' st) : s.CompletesAll insns bus bus' changed post' := by
  obtain ⟨s', pc, hrun, hst, hrest⟩ := h
  exact ⟨s', pc, hrun, hpost _ hst, hrest⟩

theorem completes_of_execute (hs : s.Live bigEndian) (hm : insn.mnemonic.branches = false) {s' : Session}
    (hcall : Computer.execute insn ⟨s, bus⟩ = .ok () ⟨s', bus'⟩) (hchange : s.regs.state.ChangesOnly s'.regs.state changed)
    (hpost : post s'.regs.state) : s.Completes insn bus bus' changed post := by
  obtain ⟨pc, hpc, hnext⟩ := exists_pc_execute hs hm hcall
  exact ⟨s', pc, hcall, hpost, changesOnly_execute hs hcall hchange, hpc, hnext⟩

/-! ## From the run of an effect -/

/-- An instruction is lifted at the program counter, with the privilege of the session. -/
theorem liftFor_of_lift (hs : s.Live bigEndian) {pc : Address} (hpc : s.pc = .ok pc) {lifted : Lifted}
    (hlift : lift insn pc.toNat (s.regs.state.flag .md) = .ok lifted) :
    liftFor (loadedVm bigEndian s.regs) insn = .ok lifted := by
  obtain rfl : BitVec.ofNat 32 (s.regs.content pcReg) = pc := Except.ok.inj (hs.pc_eq.symm.trans hpc)
  rw [liftFor_eq_ok, fetchAddress_loadedVm, (shows_loadedVm bigEndian hs.profile).privileged]
  exact hlift

section

variable {pc : Address} {e : Effect} {vm : Vm}

theorem completes_of_exec (hs : s.Live bigEndian) (hm : insn.mnemonic.branches = false) (hpc : s.pc = .ok pc)
    (hlift : lift insn pc.toNat (s.regs.state.flag .md) = .ok (.effect e))
    (hexec : Machine.exec e ⟨loadedVm bigEndian s.regs, bus⟩ = .ok () ⟨vm, bus'⟩) {y : Frame} (hvm : Shows vm y)
    (hchange : s.regs.state.ChangesOnly y.toState changed) (hpost : post y.toState) :
    s.Completes insn bus bus' changed post := by
  obtain ⟨s', hcall, -, hstate⟩ := execute_of_lifted hs (liftFor_of_lift hs hpc hlift) hexec hvm
  exact completes_of_execute hs hm hcall (hstate ▸ hchange) (hstate ▸ hpost)

theorem stops_of_exec (hs : s.Live bigEndian) (hpc : s.pc = .ok pc) {cause : VmError}
    (hlift : lift insn pc.toNat (s.regs.state.flag .md) = .ok (.effect e))
    (hexec : Machine.exec e ⟨loadedVm bigEndian s.regs, bus⟩ = .error (.error cause) ⟨vm, bus⟩) : s.Stops insn bus cause :=
  execute_of_error hs (liftFor_of_lift hs hpc hlift) hexec

end

section

variable {p : Insn} {f : State → State}

/-- One instruction that means the same as one which transforms states. -/
theorem Cpu.Transforms.completes_of_sameMeaning (h : Transforms [p] f) (hsame : SameMeaning insn p)
    (hm : insn.mnemonic.branches = false) (hs : s.Live bigEndian) (hchange : s.regs.state.ChangesOnly (f s.regs.state) changed)
    (hpost : post (f s.regs.state)) (bus : σ) : s.Completes insn bus bus changed post := by
  obtain ⟨s', hrun, -, hstate⟩ := h.run bus hs
  have hcall : Computer.execute insn ⟨s, bus⟩ = .ok () ⟨s', bus⟩ := by
    rw [execute_of_sameMeaning hs hsame]
    obtain ⟨houtcome, hfinal⟩ := Prod.mk.inj hrun
    exact eq_ok_iff.2 ⟨(List.cons.inj houtcome).1, hfinal⟩
  exact completes_of_execute hs hm hcall (hstate ▸ hchange) (hstate ▸ hpost)

/-- One instruction on general registers, with any word and with or without the size of a register. -/
theorem Cpu.Transforms.completes (h : Transforms [p] f) (hp : p.Forward) (hplain : insn.plain = p) (hs : s.Live bigEndian)
    (hchange : s.regs.state.ChangesOnly (f s.regs.state) changed) (hpost : post (f s.regs.state)) (bus : σ) :
    s.Completes insn bus bus changed post := by
  subst hplain
  exact h.completes_of_sameMeaning (hp.sameMeaning rfl) hp.branches hs hchange hpost bus

/-- Instructions on general registers, with any words and with or without the size of a register. -/
theorem Cpu.Transforms.completesAll {program insns : List Insn} (h : Transforms program f)
    (hprogram : ∀ p ∈ program, p.Forward) (hplain : insns.map Insn.plain = program) (hs : s.Live bigEndian)
    (hchange : s.regs.state.ChangesOnly (f s.regs.state) changed) (hpost : post (f s.regs.state)) (bus : σ) :
    s.CompletesAll insns bus bus changed post := by
  obtain ⟨s', hrun, hstate, pc, hpc, hnext⟩ := h.run_forward hplain hprogram hs bus
  have hlength : program.length = insns.length := by rw [← hplain, List.length_map]
  rw [hlength] at hrun hnext
  have hregs := changesOnly_executeAll hs (congrArg Prod.snd hrun) (hstate ▸ hchange)
  exact ⟨s', pc, hrun, hstate ▸ hpost, hregs, hpc, hnext⟩

end

end SuperH
