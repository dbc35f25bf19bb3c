import SuperH.Proofs.Run.Contract
import SuperH.Proofs.Vm.Sort

/-!
# One call in closed form

* `Session.new_eq_ok` : what a new session is made of;
* `Computer.execute_eq` : the phases of a call, each with the state that it leaves when it fails;
* `Computer.execute_eq_ok` : a call that answers went through all of them;
* `Computer.regs_of_trap` : a call that ends in a trap other than an exception leaves the registers alone;
* `Computer.step_keeps`, `Computer.runUntil_keeps` : what calls keep, stepping and running do;
* `Computer.executeAll` : many calls in a row, which keep what each of them keeps (`executeAll_keeps`).
-/

namespace SuperH

/-- What a new session is made of. -/
theorem Session.new_eq_ok {p : Profile} {config : VmConfig} {lifter : Lifter} {s : Session}
    (h : new p config lifter = .ok s) : ∃ vm vm', Vm.new config = .ok vm ∧
      Vm.setupBinding (.derive p) vm = .ok () vm' ∧ s = ⟨vm', .zeros p, lifter⟩ := by
  unfold new at h
  cases hvm : Vm.new config with
  | error f =>
    rw [hvm] at h
    cases h
  | ok vm =>
    rw [hvm] at h
    change (Except.ok vm : Except (Failure VmError) Vm) >>= _ = .ok s at h
    simp only [bind, Except.bind] at h
    cases hset : Vm.setupBinding (Binding.derive p) vm with
    | error e vm' =>
      rw [hset] at h
      cases h
    | ok u vm' =>
      rw [hset] at h
      cases h
      exact ⟨vm, vm', rfl, hset, rfl⟩

namespace Computer

variable {σ : Type} [Bus σ]

/-- The address of the instruction that an interpreter is about to run. -/
def fetchAddress (vm : Vm) : Address := BitVec.ofNat 32 vm.pc.low64

/-- The phases of a call: load, lift, run, write back, and report an exception. -/
theorem execute_eq (insn : Insn) (s : Computer σ) :
    execute insn s = match Sync.fromPhysical s.session.regs s.session.vm with
      | .error e vm => .error (e.map .sync) { s with session.vm := vm }
      | .ok () vm => match { s.session with vm := vm }.liftAt insn (fetchAddress vm) with
        | .error trap => .error (.error trap) { s with session.vm := vm }
        | .ok lifted => match Machine.step lifted insnBytes ⟨vm, s.bus⟩ with
          | .error e m => .error (e.map .vm) { s with session.vm := m.vm, bus := m.bus }
          | .ok () m => match Sync.toPhysical m.vm s.session.regs with
            | .error f regs => .error (.fault f) ⟨⟨m.vm, regs, s.session.lifter⟩, m.bus⟩
            | .ok _ regs => match m.vm.events with
              | name :: _ => .error (.error (.exception (fetchAddress vm) name))
                  ⟨⟨{ m.vm with events := [] }, regs, s.session.lifter⟩, m.bus⟩
              | [] => .ok () ⟨⟨{ m.vm with events := [] }, regs, s.session.lifter⟩, m.bus⟩ := by
  show EStateM.bind (onVm .sync (Sync.fromPhysical s.session.regs)) (fun _ s =>
    EStateM.bind (Failure.ofError (s.session.liftAt insn (fetchAddress s.session.vm))) (fun lifted =>
    EStateM.bind (onMachine (Machine.step lifted insnBytes)) fun _ t =>
    EStateM.bind (onRegs (Sync.toPhysical t.session.vm)) (fun _ => EStateM.bind (onVm .vm Vm.takeEvents) fun events =>
    match events with
    | name :: _ => throw (.error (.exception (fetchAddress s.session.vm) name))
    | [] => pure ()) t) s) s = _
  simp only [EStateM.bind, onVm]
  cases hload : Sync.fromPhysical s.session.regs s.session.vm with
  | error e vm => rfl
  | ok u vm =>
    dsimp only
    cases hlift : { s.session with vm := vm }.liftAt insn (fetchAddress vm) with
    | error trap => rfl
    | ok lifted =>
      simp only [Failure.ofError, pure, EStateM.pure, onMachine]
      cases hstep : Machine.step lifted insnBytes (⟨vm, s.bus⟩ : Machine σ) with
      | error e m => rfl
      | ok u m =>
        simp only [onRegs]
        cases hback : Sync.toPhysical m.vm s.session.regs with
        | error f regs => rfl
        | ok whole regs =>
          simp only [Vm.takeEvents_eq]
          cases m.vm.events with
          | nil => rfl
          | cons name names => rfl

/-- A call that answers went through all of its phases. -/
theorem execute_eq_ok {insn : Insn} {s t : Computer σ} (h : execute insn s = .ok () t) :
    ∃ vm lifted m whole regs, Sync.fromPhysical s.session.regs s.session.vm = .ok () vm ∧
      Machine.step lifted insnBytes ⟨vm, s.bus⟩ = .ok () m ∧ Sync.toPhysical m.vm s.session.regs = .ok whole regs ∧
      t = ⟨⟨{ m.vm with events := [] }, regs, s.session.lifter⟩, m.bus⟩ := by
  rw [execute_eq] at h
  split at h
  · cases h
  rename_i vm hload
  split at h
  · cases h
  rename_i lifted hlift
  split at h
  · cases h
  rename_i m hstep
  split at h
  · cases h
  rename_i whole regs hback
  split at h
  · cases h
  · cases h
    exact ⟨vm, lifted, m, whole, regs, hload, hstep, hback, rfl⟩

/-- Of the traps, only an exception is reported after the registers are written back. -/
theorem regs_of_trap {insn : Insn} {s t : Computer σ} {trap : Trap} (h : execute insn s = .error (.error trap) t)
    (htrap : ∀ pc name, trap ≠ .exception pc name) : t.session.regs = s.session.regs := by
  rw [execute_eq] at h
  split at h
  · obtain ⟨-, rfl⟩ := EStateM.Result.error.inj h
    rfl
  split at h
  · obtain ⟨-, rfl⟩ := EStateM.Result.error.inj h
    rfl
  split at h
  · obtain ⟨-, rfl⟩ := EStateM.Result.error.inj h
    rfl
  split at h
  · cases h
  split at h
  · cases h
    exact absurd rfl (htrap _ _)
  · cases h

/-! ## Several calls -/

section Keeps

variable {P : Session → Prop}

/-- What every call leaves true of the session, fetching and decoding first does, too. -/
theorem step_keeps (hcall : ∀ insn, Keeps (fun c : Computer σ => P c.session) (execute insn))
    (decode : UInt16 → Option Insn) : Keeps (fun c : Computer σ => P c.session) (step decode) := by
  refine Keeps.bind (fun _ h => h) fun c => Keeps.bind Keeps.ofFault fun pc => Keeps.bind ?_ fun word => ?_
  · intro d hd
    unfold Computer.onBus
    cases Bus.read16 pc d.bus <;> exact hd
  · cases decode word with
    | some insn => exact hcall insn
    | none => exact Keeps.throw

/-- So does a run until an address. -/
theorem runUntil_keeps (hcall : ∀ insn, Keeps (fun c : Computer σ => P c.session) (execute insn))
    (decode : UInt16 → Option Insn) (stop : Address) (done n : Nat) :
    Keeps (fun c : Computer σ => P c.session) (runUntil decode stop done n) := by
  induction n generalizing done with
  | zero => exact Keeps.pure
  | succ n ih =>
    refine Keeps.bind (fun _ h => h) fun c => Keeps.bind Keeps.ofFault fun pc => ?_
    exact Keeps.ite Keeps.pure (Keeps.bind (step_keeps hcall decode) fun _ => ih (done + 1))

end Keeps

/-- Runs instructions one after the other, whatever each answers, and collects the answers. -/
def executeAll : List Insn → Computer σ → List (Except (Failure Trap) Unit) × Computer σ
  | [], s => ([], s)
  | insn :: insns, s =>
    let call := execute insn s
    let rest := executeAll insns (final call)
    (outcome call :: rest.1, rest.2)

/-- What every call of a run leaves true, the run does. -/
theorem executeAll_keeps {P : Computer σ → Prop} {insns : List Insn} {s : Computer σ}
    (hcall : ∀ insn ∈ insns, ∀ t, P t → P (final (execute insn t))) (hs : P s) : P (executeAll insns s).2 := by
  induction insns generalizing s with
  | nil => exact hs
  | cons insn insns ih =>
    have hfirst : P (final (execute insn s)) := hcall insn (List.mem_cons_self ..) s hs
    exact ih (fun i hi => hcall i (List.mem_cons_of_mem _ hi)) hfirst

end Computer
end SuperH
