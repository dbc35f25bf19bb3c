import Mathlib.Tactic.ByContra
import SuperH.Memory.Linear
import SuperH.Proofs.Session.Live
import SuperH.Proofs.User.Policy

/-!
# User mode is confined

* `RegisterFile.UserMode` : flag MD is clear;
* `Cpu.Confined` : the interpreter's privileged variables are as they were loaded, which no effect of user mode changes
  (`Confined.stable`);
* `Cpu.call_of_privileged`, `Cpu.call_of_not_privileged` : one call in user mode;
* `user_mode_confined` : any number of calls.
-/

namespace SuperH

/-- The flag of privileged mode is clear. -/
def RegisterFile.UserMode (regs : RegisterFile) : Prop := regs.get "sr_d" = .ok (some 0)

namespace Cpu

variable {bigEndian : Bool} {regs : RegisterFile} {vm : Vm}

theorem userMode_iff (hp : regs.profile = profile) : regs.UserMode ↔ regs.content (flagReg .md) = 0 := by
  have hget : regs.get "sr_d" = _ := get_eq hp (boundRegs_known _ (flagReg_mem .md)) (by decide)
  rw [RegisterFile.UserMode, hget]
  simp

/-! ## The confined interpreter -/

/-- The privileged variables are as they were loaded from the registers. -/
structure Confined (bigEndian : Bool) (regs : RegisterFile) (vm : Vm) : Prop extends Ready bigEndian vm where
  guarded : ∀ r ∈ boundRegs, r.name ∈ privilegedNames → vm.get? r.name = some (regs.value r)

theorem confined_loadedVm : Confined bigEndian regs (loadedVm bigEndian regs) :=
  { ready_loadedVm with guarded := fun _ hr _ => get?_loadedVm hr }

/-- No effect of user mode changes a privileged variable. -/
theorem Confined.stable (bigEndian : Bool) (regs : RegisterFile) : Policy.user.Stable (Confined bigEndian regs) where
  global := by
    intro vm name old value hname hold hs h
    refine { (Ready.stable bigEndian).global trivial hold hs h.toReady with guarded := fun r hr hmem => ?_ }
    have hne : r.name ≠ name := fun he => hname (he ▸ hmem)
    rw [Vm.get?_replace, if_neg hne]
    exact h.guarded r hr hmem
  start h := { h with toReady := (Ready.stable bigEndian).start h.toReady }
  temp h := { h with toReady := (Ready.stable bigEndian).temp h.toReady }
  pc hpos h := { h with toReady := (Ready.stable bigEndian).pc hpos h.toReady }
  jumped h := { h with toReady := (Ready.stable bigEndian).jumped h.toReady }
  raise hr := hr.elim

/-- In user mode bank 1 is not in use. -/
theorem Confined.refutes {σ : Type} [Bus σ] (hmode : regs.content (flagReg .md) = 0) :
    Policy.user.Refutes σ (Confined bigEndian regs) := by
  rintro c vm rfl h
  have hmd : vm.get? Flag.md.var = some (.bool false) := by
    refine (h.guarded (flagReg .md) (flagReg_mem .md) (by decide)).trans (congrArg some ?_)
    show Value.bool (decide (regs.content (flagReg .md) = 1)) = _
    rw [hmode]
    rfl
  have hrb : vm.get? Flag.rb.var = some (regs.value (flagReg .rb)) :=
    h.guarded (flagReg .rb) (flagReg_mem .rb) (by decide)
  show (vm.eval (.logic .and (.var ⟨.global, Flag.md.var⟩) (.var ⟨.global, Flag.rb.var⟩)) : Eval σ Value) = _
  rw [Vm.eval, Vm.eval, Vm.eval, Vm.lookup_global_eq_ok.2 hmd, Vm.lookup_global_eq_ok.2 hrb]
  rfl

/-! ## One call -/

variable {σ : Type} [Bus σ] {insn : Insn}

theorem privileged_loadedVm (hmode : regs.content (flagReg .md) = 0) : (loadedVm bigEndian regs).privileged = false := by
  unfold Vm.privileged
  rw [get?_flag, hmode]
  rfl

/-- A privileged instruction in user mode is an exception that moves past it and changes nothing else. -/
theorem call_of_privileged (hmode : regs.content (flagReg .md) = 0) (hwf : insn.WellFormed)
    (hpriv : insn.IsPrivileged) (bus : σ) :
    call bigEndian insn regs bus =
      (.error (.error (.exception (BitVec.ofNat 32 (regs.content pcReg)) reservedInstruction)),
        regs.put pcReg ((regs.content pcReg + 2) % 2 ^ 32), bus) := by
  have hlift : liftFor (loadedVm bigEndian regs) insn = .ok (.exception reservedInstruction) := by
    rw [liftFor_eq_ok, privileged_loadedVm hmode]
    rcases lift_user hwf (Computer.fetchAddress (loadedVm bigEndian regs)).toNat with ⟨-, h⟩ | ⟨hnot, -⟩
    · exact h
    · exact absurd hpriv hnot
  have hpc : ((loadedVm bigEndian regs).pc + Bits.ofNat 32 insnBytes).toNat = (regs.content pcReg + 2) % 2 ^ 32 := by
    have hlt : regs.content pcReg < 2 ^ 32 := RegisterFile.content_lt
    have hw : (loadedVm bigEndian regs).pc.width = (Bits.ofNat 32 insnBytes).width := rfl
    have hsize : (Bits.ofNat 32 insnBytes).toNat = 2 := (Bits.toNat_ofNat ..).trans (Nat.mod_eq_of_lt (by decide))
    rw [Bits.toNat_add hw, hsize]
    show ((Bits.ofNat 32 (regs.content pcReg)).toNat + 2) % 2 ^ 32 = _
    rw [Bits.toNat_ofNat, Nat.mod_eq_of_lt hlt]
  unfold call
  dsimp only
  rw [hlift]
  dsimp only
  rw [ready_loadedVm.step_exception, fetchAddress_loadedVm, ← hpc]
  have hback := @writeBack_loadedVm bigEndian regs ((loadedVm bigEndian regs).pc + Bits.ofNat 32 insnBytes) rfl []
    [reservedInstruction] false
  rw [← hback]
  rfl

theorem effect_of_liftFor (hmode : regs.content (flagReg .md) = 0) (hwf : insn.WellFormed)
    (hpriv : ¬ insn.IsPrivileged) {lifted : Lifted} (h : liftFor (loadedVm bigEndian regs) insn = .ok lifted) :
    ∃ e, lifted = .effect e ∧ e.Within .user := by
  have hlifted := liftFor_eq_ok.1 h
  rw [privileged_loadedVm hmode] at hlifted
  rcases lift_user hwf (Computer.fetchAddress (loadedVm bigEndian regs)).toNat with ⟨hyes, -⟩ | ⟨-, heffect⟩
  · exact absurd hyes hpriv
  · exact heffect lifted hlifted

/-- Any other instruction in user mode is no exception and leaves the privileged registers alone. -/
theorem call_of_not_privileged (hp : regs.profile = profile) (hmode : regs.content (flagReg .md) = 0)
    (hwf : insn.WellFormed) (hpriv : ¬ insn.IsPrivileged) (bus : σ) :
    (∀ pc name, (call bigEndian insn regs bus).1 ≠ .error (.error (.exception pc name))) ∧
      ∀ r ∈ boundRegs, r.name ∈ privilegedNames → (call bigEndian insn regs bus).2.1.content r = regs.content r := by
  unfold call
  dsimp only
  cases hlift : liftFor (loadedVm bigEndian regs) insn with
  | error trap =>
    refine ⟨fun pc name h => ?_, fun _ _ _ => rfl⟩
    cases h
    exact liftFor_ne_exception hlift pc name rfl
  | ok lifted =>
    obtain ⟨e, rfl, he⟩ := effect_of_liftFor hmode hwf hpriv hlift
    have hkeeps := Machine.step_effect_keeps (Confined.refutes (σ := σ) hmode) (Confined.stable bigEndian regs) he
      insnBytes ⟨loadedVm bigEndian regs, bus⟩ confined_loadedVm
    dsimp only
    cases hstep : Machine.step (.effect e) insnBytes (⟨loadedVm bigEndian regs, bus⟩ : Machine σ) with
    | error f m =>
      refine ⟨fun pc name h => ?_, fun _ _ _ => rfl⟩
      cases f <;> cases h
    | ok u m =>
      rw [hstep] at hkeeps
      have hconfined : Confined bigEndian regs m.vm := hkeeps
      dsimp only
      rw [hconfined.events]
      refine ⟨fun pc name h => ?_, fun r hr hmem => ?_⟩
      · cases h
      · rw [hconfined.content_writeBack hp hr, Sync.number_eq (hconfined.guarded r hr hmem),
          RegisterFile.toNat_value (boundRegs_fits r hr)]

theorem call_exception_iff (hp : regs.profile = profile) (hmode : regs.content (flagReg .md) = 0) (hwf : insn.WellFormed)
    (bus : σ) :
    (∃ pc name, (call bigEndian insn regs bus).1 = .error (.error (.exception pc name))) ↔ insn.IsPrivileged := by
  constructor
  · rintro ⟨pc, name, h⟩
    by_contra hpriv
    exact (call_of_not_privileged hp hmode hwf hpriv bus).1 pc name h
  · intro hpriv
    rw [call_of_privileged hmode hwf hpriv]
    exact ⟨_, _, rfl⟩

/-- No call in user mode changes a privileged register. -/
theorem call_guards (hp : regs.profile = profile) (hmode : regs.content (flagReg .md) = 0) (hwf : insn.WellFormed)
    (bus : σ) {r : Register} (hr : r ∈ boundRegs) (hmem : r.name ∈ privilegedNames) :
    (call bigEndian insn regs bus).2.1.content r = regs.content r := by
  by_cases hpriv : insn.IsPrivileged
  · have hlt : (regs.content pcReg + 2) % 2 ^ 32 < 2 ^ pcReg.size := Nat.mod_lt _ (Nat.two_pow_pos 32)
    rw [call_of_privileged hmode hwf hpriv]
    exact RegisterFile.content_put_of_apart (boundRegs_fits r hr) pcReg_fits (pcReg_apart r hr).symm hlt
  · exact (call_of_not_privileged hp hmode hwf hpriv bus).2 r hr hmem

end Cpu

/-! ## Any number of calls -/

/-- The session is one of the machine, and its privileged registers are those of a register file. -/
structure Session.Guarded (bigEndian : Bool) (regs : RegisterFile) (s : Session) : Prop where
  reachable : s.Reachable bigEndian
  kept : ∀ r ∈ Cpu.boundRegs, r.name ∈ Cpu.privilegedNames → s.regs.content r = regs.content r

variable {σ : Type} [Bus σ] {bigEndian : Bool} {regs : RegisterFile} {insn : Insn}

theorem Session.Guarded.mode {s : Session} (h : s.Guarded bigEndian regs)
    (hmode : regs.content (Cpu.flagReg .md) = 0) : s.regs.content (Cpu.flagReg .md) = 0 :=
  (h.kept _ (Cpu.flagReg_mem .md) (by decide)).trans hmode

theorem Session.Guarded.execute {c : Computer σ} (h : c.session.Guarded bigEndian regs)
    (hmode : regs.content (Cpu.flagReg .md) = 0) (hwf : insn.WellFormed) :
    (final (Computer.execute insn c)).session.Guarded bigEndian regs where
  reachable := h.reachable.execute insn c.bus
  kept r hr hmem := by
    have hregs : (final (Computer.execute insn c)).session.regs = (Cpu.call bigEndian insn c.session.regs c.bus).2.1 :=
      congrArg (·.2.1) (h.reachable.live.observe_execute insn c.bus)
    rw [hregs, Cpu.call_guards h.reachable.live.profile (h.mode hmode) hwf c.bus hr hmem]
    exact h.kept r hr hmem

/-- A call in user mode does not leave it. -/
theorem Session.Reachable.mode_execute {c : Computer σ} (h : c.session.Reachable bigEndian)
    (hmode : c.session.regs.content (Cpu.flagReg .md) = 0) (hwf : insn.WellFormed) :
    (final (Computer.execute insn c)).session.regs.content (Cpu.flagReg .md) = 0 := by
  have hc : c.session.Guarded bigEndian c.session.regs := ⟨h, fun _ _ _ => rfl⟩
  exact (hc.execute hmode hwf).mode hmode

/-- From any session of the machine in user mode, and over any run of well-formed instructions on any memory, whatever
they answer: the privileged registers keep their values, so user mode is never left. A call is an exception exactly if
its instruction is privileged. It is the one for a reserved instruction then, and moves the program counter past the
instruction, but changes no other register and no memory. -/
theorem user_mode_confined {s : Session} (hs : s.Reachable bigEndian) (hmode : s.regs.UserMode) (bus : σ)
    {before : List Insn} (hbefore : ∀ i ∈ before, i.WellFormed) {insn : Insn} (hinsn : insn.WellFormed) :
    let c := (Computer.executeAll before ⟨s, bus⟩).2
    let r := Computer.execute insn c
    (∀ name ∈ Cpu.privilegedNames, (final r).session.regs.getBits name = s.regs.getBits name) ∧
      (final r).session.regs.UserMode ∧
      ((∃ pc name, outcome r = .error (.error (.exception pc name))) ↔ insn.IsPrivileged) ∧
      (insn.IsPrivileged → ∃ pc, c.session.regs.pc = .ok (some pc) ∧
        outcome r = .error (.error (.exception (BitVec.ofNat 32 pc) reservedInstruction)) ∧ (final r).bus = c.bus ∧
        RegisterFile.setPc ((pc + 2) % 2 ^ 32) c.session.regs = .ok true (final r).session.regs) := by
  intro c r
  have hprofile := hs.live.profile
  have hmd : s.regs.content (Cpu.flagReg .md) = 0 := (Cpu.userMode_iff hprofile).1 hmode
  have hc : c.session.Guarded bigEndian s.regs :=
    Computer.executeAll_keeps (P := fun c : Computer σ => c.session.Guarded bigEndian s.regs)
      (fun i hi d hd => hd.execute hmd (hbefore i hi)) ⟨hs, fun _ _ _ => rfl⟩
  have hr : (final r).session.Guarded bigEndian s.regs := hc.execute hmd hinsn
  have hr' := hr.reachable.live.profile
  have hcall : Computer.observe r = Cpu.call bigEndian insn c.session.regs c.bus :=
    hc.reachable.live.observe_execute insn c.bus
  refine ⟨fun name hname => ?_, (Cpu.userMode_iff hr').2 (hr.mode hmd), ?_, fun hpriv => ?_⟩
  · obtain ⟨reg, hreg, rfl⟩ := Cpu.exists_of_privileged name hname
    exact (Cpu.getBits_inj hr' hprofile (Cpu.boundRegs_known reg hreg)).2 (hr.kept reg hreg hname)
  · have hanswer : outcome r = (Cpu.call bigEndian insn c.session.regs c.bus).1 := congrArg (·.1) hcall
    rw [hanswer]
    exact Cpu.call_exception_iff hc.reachable.live.profile (hc.mode hmd) hinsn c.bus
  · rw [Cpu.call_of_privileged (hc.mode hmd) hinsn hpriv] at hcall
    have hregs : (final r).session.regs = c.session.regs.put Cpu.pcReg ((c.session.regs.content Cpu.pcReg + 2) % 2 ^ 32) :=
      congrArg (·.2.1) hcall
    refine ⟨_, Cpu.pc_eq hc.reachable.live.profile, congrArg (·.1) hcall, congrArg (·.2.2) hcall, ?_⟩
    rw [Cpu.setPc_eq hc.reachable.live.profile, Nat.mod_mod, hregs]

/-- An addition and then RTE, which would leave for the address in SPC. -/
theorem user_mode_confined_rte :
    let s : Session := ⟨Cpu.initialVm false, final (RegisterFile.set "spc" 0x8000 (.zeros Cpu.profile)), lift⟩
    let rte : Insn := ⟨.rte, [], .unsized, 0x002b⟩
    let c := (Computer.executeAll [⟨.add, [.reg 1, .reg 2], .long, 0x321c⟩] ⟨s, LinearMemory.zeros 4⟩).2
    let r := Computer.execute rte c
    s.Reachable false ∧ s.regs.UserMode ∧ rte.IsPrivileged ∧
      (final r).session.regs.getBits "spc" = s.regs.getBits "spc" ∧ ∃ pc, c.session.regs.pc = .ok (some pc) ∧
      outcome r = .error (.error (.exception (BitVec.ofNat 32 pc) reservedInstruction)) ∧ (final r).bus = c.bus ∧
      RegisterFile.setPc ((pc + 2) % 2 ^ 32) c.session.regs = .ok true (final r).session.regs := by
  intro s rte c r
  have hs : s.Reachable false := (Session.Reachable.start (Session.sh4_eq false)).write (by decide +kernel)
  have hmode : s.regs.UserMode := by
    show s.regs.get "sr_d" = .ok (some 0)
    decide +kernel
  have hadd : ∀ i ∈ [(⟨.add, [.reg 1, .reg 2], .long, 0x321c⟩ : Insn)], i.WellFormed := by
    intro i hi
    obtain rfl := List.mem_singleton.1 hi
    exact Insn.wellFormed_of_general (by decide) (by decide)
  have hrte : rte.WellFormed := Insn.wellFormed_of_general (by decide) (by decide)
  -- with the registers in sight the run would be evaluated
  clear_value s
  obtain ⟨hkept, -, -, htrap⟩ := user_mode_confined hs hmode (LinearMemory.zeros 4) hadd hrte
  exact ⟨hs, hmode, trivial, hkept "spc" (by decide), htrap trivial⟩

end SuperH
