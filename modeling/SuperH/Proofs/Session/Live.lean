import SuperH.Proofs.Cpu.Attached
import SuperH.Proofs.Lift.Policy
import SuperH.Proofs.Session.Execute

/-!
# Sessions of the machine

* `Session.Reachable` : the sessions that calls and writes to the registers lead to;
* `Session.Live` : what holds of all of them (`Session.Reachable.live`);
* `Cpu.call` : one call as a function of the registers and the memory alone, which a call of a live session is
  (`Session.Live.observe_execute`).
-/

namespace SuperH

variable {σ : Type} [Bus σ]

/-- The meaning of an instruction raises nothing from within its effect. -/
theorem lift_quiet {insn : Insn} {pc : Nat} {privileged : Bool} {lifted : Lifted}
    (h : lift insn pc privileged = .ok lifted) :
    lifted = .exception reservedInstruction ∨ ∃ e, lifted = .effect e ∧ e.Within .quiet := by
  unfold lift at h
  dsimp only at h
  split at h
  · cases h
    exact .inl rfl
  · obtain ⟨e, he, rfl⟩ := Build.map_eq_ok.1 h
    exact .inr ⟨e, rfl, Lift.effect_quiet he⟩

/-! ## One call -/

/-- What a call answers, with the registers and the memory that it leaves. -/
def Computer.observe (r : EStateM.Result (Failure Trap) (Computer σ) Unit) :
    Except (Failure Trap) Unit × RegisterFile × σ :=
  (outcome r, (final r).session.regs, (final r).bus)

namespace Cpu

/-- What an instruction means to the machine's interpreter. -/
def liftFor (vm : Vm) (insn : Insn) : Except Trap Lifted :=
  match lift insn (Computer.fetchAddress vm).toNat vm.privileged with
  | .ok lifted => .ok lifted
  | .error (.invalidInstruction _) => .error (.invalidInstruction (Computer.fetchAddress vm))
  | .error cause => .error (.lift (Computer.fetchAddress vm) cause)

/-- What a completed instruction answers: its first exception, if it raised one. -/
def report (pc : Address) : List String → Except (Failure Trap) Unit
  | name :: _ => .error (.error (.exception pc name))
  | [] => .ok ()

/-- One call as a function of the registers and the memory. -/
def call (bigEndian : Bool) (insn : Insn) (regs : RegisterFile) (bus : σ) :
    Except (Failure Trap) Unit × RegisterFile × σ :=
  let vm := loadedVm bigEndian regs
  match liftFor vm insn with
  | .error trap => (.error (.error trap), regs, bus)
  | .ok lifted => match Machine.step lifted insnBytes ⟨vm, bus⟩ with
    | .error e m => (.error (e.map .vm), regs, m.bus)
    | .ok () m => (report (Computer.fetchAddress vm) m.vm.events, writeBack m.vm regs, m.bus)

variable {bigEndian : Bool} {insn : Insn} {vm : Vm} {lifted : Lifted}

theorem liftFor_eq_ok : liftFor vm insn = .ok lifted ↔
    lift insn (Computer.fetchAddress vm).toNat vm.privileged = .ok lifted := by
  unfold liftFor
  split
  · simp [*]
  · simp [*]
  · simp [*]

theorem fetchAddress_loadedVm {regs : RegisterFile} :
    Computer.fetchAddress (loadedVm bigEndian regs) = BitVec.ofNat 32 (regs.content pcReg) := by
  have hlt : regs.content pcReg < 2 ^ 32 := RegisterFile.content_lt
  show BitVec.ofNat 32 (Bits.ofNat 32 (regs.content pcReg)).low64 = _
  rw [Bits.low64_eq, Bits.toNat_ofNat, Nat.mod_eq_of_lt hlt, Nat.mod_eq_of_lt (Nat.lt_trans hlt (by decide))]

theorem liftFor_ne_exception {trap : Trap} (h : liftFor vm insn = .error trap) (pc : Address) (name : String) :
    trap ≠ .exception pc name := by
  unfold liftFor at h
  split at h <;> cases h <;> exact nofun

/-- An instruction leaves the interpreter attached, and ready if it fails. -/
theorem Ready.step_lifted (h : Ready bigEndian vm) (hlift : liftFor vm insn = .ok lifted) (size : Nat) (bus : σ) :
    Satisfies (fun _ m => Attached bigEndian m.vm) (fun _ m => Ready bigEndian m.vm)
      (Machine.step lifted size ⟨vm, bus⟩) := by
  rcases lift_quiet (liftFor_eq_ok.1 hlift) with rfl | ⟨e, rfl, he⟩
  · rw [h.step_exception]
    exact { h.toAttached with pc := h.pc }
  · have hkeeps := Ready.step_effect_keeps he size ⟨vm, bus⟩ h
    cases hstep : Machine.step (.effect e) size (⟨vm, bus⟩ : Machine σ) with
    | ok u m =>
      rw [hstep] at hkeeps
      exact hkeeps.toAttached
    | error f m =>
      rw [hstep] at hkeeps
      exact hkeeps

end Cpu

namespace Session

/-! ## Live sessions -/

/-- A session of the machine between two calls. -/
structure Live (bigEndian : Bool) (s : Session) : Prop where
  lifter : s.lifter = lift
  profile : s.regs.profile = Cpu.profile
  ready : Cpu.Ready bigEndian s.vm

variable {bigEndian : Bool} {s : Session}

/-- A new session of the machine, with any lifter. -/
theorem new_eq (bigEndian : Bool) (lifter : Lifter) :
    new Cpu.profile (Cpu.vmConfig bigEndian) lifter = .ok ⟨Cpu.initialVm bigEndian, .zeros Cpu.profile, lifter⟩ := by
  obtain ⟨vm, hnew, hsetup⟩ := Cpu.setupBinding_eq bigEndian
  unfold new
  rw [hnew]
  show (Except.ok vm : Except (Failure VmError) Vm) >>= _ = _
  simp only [bind, Except.bind]
  rw [hsetup]
  rfl

theorem sh4_eq (bigEndian : Bool) :
    sh4 bigEndian = .ok ⟨Cpu.initialVm bigEndian, .zeros Cpu.profile, lift⟩ := new_eq bigEndian lift

theorem live_of_sh4 (h : sh4 bigEndian = .ok s) : s.Live bigEndian := by
  rw [sh4_eq] at h
  cases h
  exact ⟨rfl, rfl, { Cpu.attached_initialVm bigEndian with events := rfl }⟩

/-- The phases of a call of a live session, of which loading and writing back always succeed. -/
theorem Live.execute_eq (h : s.Live bigEndian) (insn : Insn) (bus : σ) :
    Computer.execute insn ⟨s, bus⟩ =
      let vm := { Cpu.loadedVm bigEndian s.regs with temps := s.vm.temps, jumped := s.vm.jumped }
      match Cpu.liftFor (Cpu.loadedVm bigEndian s.regs) insn with
      | .error trap => .error (.error trap) ⟨{ s with vm }, bus⟩
      | .ok lifted => match Machine.step lifted insnBytes ⟨Cpu.loadedVm bigEndian s.regs, bus⟩ with
        | .error e m => .error (e.map .vm) ⟨{ s with vm := m.vm }, m.bus⟩
        | .ok () m => match m.vm.events with
          | name :: _ => .error (.error (.exception (Computer.fetchAddress vm) name))
              ⟨⟨{ m.vm with events := [] }, Cpu.writeBack m.vm s.regs, lift⟩, m.bus⟩
          | [] => .ok () ⟨⟨{ m.vm with events := [] }, Cpu.writeBack m.vm s.regs, lift⟩, m.bus⟩ := by
  obtain ⟨vm, regs, lifter⟩ := s
  obtain rfl : lifter = lift := h.lifter
  rw [Computer.execute_eq, h.ready.fromPhysical_eq h.profile h.ready.events]
  dsimp only
  show (match Cpu.liftFor (Cpu.loadedVm bigEndian regs) insn with
    | .error trap => _
    | .ok lifted => _) = _
  cases hlift : Cpu.liftFor (Cpu.loadedVm bigEndian regs) insn with
  | error trap => rfl
  | ok lifted =>
    dsimp only
    have hforget : Machine.step lifted insnBytes
        (⟨{ Cpu.loadedVm bigEndian regs with temps := vm.temps, jumped := vm.jumped }, bus⟩ : Machine σ) =
        Machine.step lifted insnBytes ⟨Cpu.loadedVm bigEndian regs, bus⟩ := Machine.step_forgets ..
    rw [hforget]
    have hsafe := Cpu.ready_loadedVm.step_lifted hlift insnBytes bus
    cases hstep : Machine.step lifted insnBytes (⟨Cpu.loadedVm bigEndian regs, bus⟩ : Machine σ) with
    | error e m => rfl
    | ok u m =>
      rw [hstep] at hsafe
      dsimp only
      generalize hback : Sync.toPhysical m.vm regs = back
      obtain rfl : _ = back := (Cpu.Attached.toPhysical_eq hsafe h.profile).symm.trans hback
      cases m.vm.events <;> rfl

/-- A call that answers is one instruction from the loaded interpreter, and its write-back. -/
theorem Live.execute_eq_ok (h : s.Live bigEndian) {insn : Insn} {bus : σ} {t : Computer σ}
    (hcall : Computer.execute insn ⟨s, bus⟩ = .ok () t) :
    ∃ lifted m, Cpu.liftFor (Cpu.loadedVm bigEndian s.regs) insn = .ok lifted ∧
      Machine.step lifted insnBytes ⟨Cpu.loadedVm bigEndian s.regs, bus⟩ = .ok () m ∧
      t = ⟨⟨{ m.vm with events := [] }, Cpu.writeBack m.vm s.regs, lift⟩, m.bus⟩ := by
  rw [h.execute_eq] at hcall
  dsimp only at hcall
  split at hcall
  · cases hcall
  rename_i lifted hlift
  split at hcall
  · cases hcall
  rename_i m hstep
  split at hcall
  · cases hcall
  · cases hcall
    exact ⟨lifted, m, hlift, hstep, rfl⟩

/-- A call of a live session depends on its registers and the memory alone. -/
theorem Live.observe_execute (h : s.Live bigEndian) (insn : Insn) (bus : σ) :
    Computer.observe (Computer.execute insn ⟨s, bus⟩) = Cpu.call bigEndian insn s.regs bus := by
  rw [h.execute_eq, Cpu.call]
  dsimp only
  cases Cpu.liftFor (Cpu.loadedVm bigEndian s.regs) insn with
  | error trap => rfl
  | ok lifted =>
    dsimp only
    cases Machine.step lifted insnBytes (⟨Cpu.loadedVm bigEndian s.regs, bus⟩ : Machine σ) with
    | error e m => rfl
    | ok u m => cases hevents : m.vm.events <;> simp only [hevents] <;> rfl

/-- A call leaves a live session live, whatever it answers. -/
theorem Live.execute (h : s.Live bigEndian) (insn : Insn) (bus : σ) :
    (final (Computer.execute insn ⟨s, bus⟩)).session.Live bigEndian := by
  rw [h.execute_eq]
  dsimp only
  cases hlift : Cpu.liftFor (Cpu.loadedVm bigEndian s.regs) insn with
  | error trap => exact ⟨h.lifter, h.profile, { Cpu.ready_loadedVm with events := rfl }⟩
  | ok lifted =>
    have hsafe := Cpu.ready_loadedVm.step_lifted hlift insnBytes bus
    dsimp only
    cases hstep : Machine.step lifted insnBytes (⟨Cpu.loadedVm bigEndian s.regs, bus⟩ : Machine σ) with
    | error e m =>
      rw [hstep] at hsafe
      exact ⟨h.lifter, h.profile, hsafe⟩
    | ok u m =>
      rw [hstep] at hsafe
      have hready : Cpu.Ready bigEndian { m.vm with events := [] } := { hsafe with events := rfl }
      have hprofile : (Cpu.writeBack m.vm s.regs).profile = Cpu.profile := Cpu.profile_writeBack.trans h.profile
      dsimp only
      split
      · exact ⟨rfl, hprofile, hready⟩
      · exact ⟨rfl, hprofile, hready⟩

/-! ## Reachable sessions -/

/-- The sessions of the machine that any calls lead to, with any instructions and on any memories, and any writes to
the registers between them. -/
inductive Reachable (bigEndian : Bool) : Session → Prop
  | start {s : Session} : sh4 bigEndian = .ok s → Reachable bigEndian s
  | write {s : Session} {regs : RegisterFile} : Reachable bigEndian s → regs.profile = s.regs.profile →
      Reachable bigEndian { s with regs }
  | execute {s : Session} {σ : Type} [Bus σ] (insn : Insn) (bus : σ) : Reachable bigEndian s →
      Reachable bigEndian (final (Computer.execute insn ⟨s, bus⟩)).session

namespace Reachable

theorem execute_keeps (insn : Insn) :
    Keeps (fun c : Computer σ => c.session.Reachable bigEndian) (Computer.execute insn) :=
  Keeps.of_final fun c hc => hc.execute insn c.bus

theorem step_keeps (decode : UInt16 → Option Insn) :
    Keeps (fun c : Computer σ => c.session.Reachable bigEndian) (Computer.step decode) :=
  Computer.step_keeps execute_keeps decode

theorem runUntil_keeps (decode : UInt16 → Option Insn) (stop : Address) (done n : Nat) :
    Keeps (fun c : Computer σ => c.session.Reachable bigEndian) (Computer.runUntil decode stop done n) :=
  Computer.runUntil_keeps execute_keeps decode stop done n

theorem live (h : Reachable bigEndian s) : s.Live bigEndian := by
  induction h with
  | start h => exact live_of_sh4 h
  | write _ hp ih => exact ⟨ih.lifter, hp.trans ih.profile, ih.ready⟩
  | execute insn bus _ ih => exact ih.execute insn bus

end Reachable

end Session
end SuperH
