import SuperH.Proofs.Session.Advance
import SuperH.Proofs.Vm.Operation

/-!
# Sorts and exact write-backs

* `Session.Leads` : the sessions that calls and writes to the registers lead to from a given one;
* `Session.Leads.later` : their interpreters keep what the first one had;
* `sorts_never_drift` : through any history an interpreter keeps the places and the sorts of its variables and the width
  of its program counter; if that is the size of its register, every instruction of a session is written back exactly.
-/

namespace SuperH

namespace Computer

variable {σ : Type} {p : Vm → Prop}

theorem onVm_keeps {ε α : Type} {trap : ε → Trap} {x : EStateM (Failure ε) Vm α} (h : Keeps p x) :
    Keeps (fun c : Computer σ => p c.session.vm) (onVm trap x) := by
  intro c hc
  have hx := h.final hc
  unfold onVm
  cases hr : x c.session.vm with
  | ok a vm =>
    rw [hr] at hx
    exact hx
  | error e vm =>
    rw [hr] at hx
    exact hx

theorem onMachine_keeps {α : Type} {x : SuperH.Run σ α} (h : Keeps (fun m => p m.vm) x) :
    Keeps (fun c : Computer σ => p c.session.vm) (onMachine x) := by
  intro c hc
  have hx := h.final (s := ⟨c.session.vm, c.bus⟩) hc
  unfold onMachine
  cases hr : x ⟨c.session.vm, c.bus⟩ with
  | ok a m =>
    rw [hr] at hx
    exact hx
  | error e m =>
    rw [hr] at hx
    exact hx

theorem onRegs_keeps {α : Type} {x : EStateM Fault RegisterFile α} :
    Keeps (fun c : Computer σ => p c.session.vm) (onRegs x) := by
  intro c hc
  unfold onRegs
  cases x c.session.regs with
  | ok a regs => exact hc
  | error f regs => exact hc

/-- A call changes the interpreter by operations only. -/
theorem execute_keeps_closed [Bus σ] (h : Vm.Closed p) (insn : Insn) :
    Keeps (fun c : Computer σ => p c.session.vm) (execute insn) := by
  have hstep (lifted : Lifted) : Keeps (fun m : Machine σ => p m.vm) (Machine.step lifted insnBytes) :=
    Machine.step_keeps Policy.any_refutes h.stable lifted.within_any insnBytes
  have htake : Keeps p Vm.takeEvents := fun vm hvm => h.take hvm
  have hget : Keeps (fun c : Computer σ => p c.session.vm) (get : Computer.Run σ (Computer σ)) := fun _ hc => hc
  refine Keeps.bind hget fun c => Keeps.bind (onVm_keeps (Vm.fromPhysical_keeps h _)) fun _ => ?_
  refine Keeps.bind hget fun d => Keeps.bind Keeps.ofError fun lifted => Keeps.bind (onMachine_keeps (hstep lifted)) fun _ => ?_
  refine Keeps.bind hget fun e => Keeps.bind onRegs_keeps fun _ => Keeps.bind (onVm_keeps htake) fun events => ?_
  split
  · exact Keeps.throw
  · exact Keeps.pure

end Computer

namespace Session

/-- The sessions that any calls lead to from a given one, on any memories, with any writes to the registers between them. -/
inductive Leads (s₀ : Session) : Session → Prop
  | refl : Leads s₀ s₀
  | write {s : Session} {regs : RegisterFile} : Leads s₀ s → regs.profile = s.regs.profile → Leads s₀ { s with regs }
  | execute {s : Session} {σ : Type} [Bus σ] (insn : Insn) (bus : σ) : Leads s₀ s →
      Leads s₀ (final (Computer.execute insn ⟨s, bus⟩)).session

variable {p : Profile} {config : VmConfig} {lifter : Lifter} {s₀ s : Session}

theorem Leads.over (hnew : new p config lifter = .ok s₀) (h : s₀.Leads s) : Over p s := by
  induction h with
  | refl => exact .start hnew
  | write _ hregs ih => exact ih.write hregs
  | execute insn bus _ ih => exact ih.execute insn bus

theorem Leads.later (hsound : s₀.vm.Sound) (h : s₀.Leads s) : s₀.vm.Later s.vm := by
  induction h with
  | refl => exact hsound.refl_later
  | write _ _ ih => exact ih
  | execute insn bus _ ih => exact (Computer.execute_keeps_closed (Vm.closed_later _) insn).final (s := ⟨_, bus⟩) ih

theorem sound_of_new (hnew : new p config lifter = .ok s₀) : s₀.vm.Sound ∧ s₀.vm.config = config := by
  obtain ⟨vm, vm', hvm, hset, rfl⟩ := new_eq_ok hnew
  have hlater : vm.Later vm' := (Vm.setupBinding_keeps (Vm.closed_later _) _).of_ok hset (Vm.sound_of_new hvm).refl_later
  obtain ⟨hpos, rfl⟩ := Vm.new_eq_ok hvm
  exact ⟨hlater.sound, hlater.config⟩

/-- An instruction that completes is written back exactly: the program counter has the width of its register. -/
theorem Leads.toPhysical (hp : p.Valid) (hnew : new p config lifter = .ok s₀) (h : s₀.Leads s) {pc : Register}
    (hpc : p.pcRegister? = some pc) (hsize : pc.size = config.pcBits) {σ : Type} [Bus σ] {lifted : Lifted} {bus : σ}
    {vm : Vm} {m : Machine σ} (hload : Sync.fromPhysical s.regs s.vm = .ok () vm)
    (hstep : Machine.step lifted insnBytes ⟨vm, bus⟩ = .ok () m) : ∃ regs, Sync.toPhysical m.vm s.regs = .ok true regs := by
  obtain ⟨hsound, hconfig⟩ := sound_of_new hnew
  have hsetUp := (h.over hnew).setUp hp
  have hclosed := Vm.closed_later s₀.vm
  have hloaded : s₀.vm.Later vm := (Vm.fromPhysical_keeps hclosed _).of_ok hload (h.later hsound)
  have hlater : s₀.vm.Later m.vm :=
    (Machine.step_keeps Policy.any_refutes hclosed.stable lifted.within_any insnBytes).of_ok hstep hloaded
  have hbound : m.vm.SetUpBy (.derive p) := by
    have hvm : vm.SetUpBy (.derive p) := (Vm.fromPhysical_keeps (Vm.SetUpBy.closed _) _).of_ok hload hsetUp.vm
    exact (Machine.step_keeps Policy.any_refutes (Vm.SetUpBy.stable _) lifted.within_any insnBytes).of_ok hstep hvm
  have hback := Sync.toPhysical_eq (hsetUp.linked hp hbound) (hsetUp.profile ▸ hpc)
  rw [hsize, hlater.sound.pc, hlater.config, hconfig, BEq.rfl] at hback
  exact ⟨_, hback⟩

end Session

/-- Between any two moments of the history of an interpreter on which a binding was set up, a name stands for the same
variable, which keeps its sort, and the program counter has its width. If the register of the program counter is of that
width, every instruction of a session that completes is written back exactly. -/
theorem sorts_never_drift :
    (∀ {config : VmConfig} {start bound : Vm} {before after : List Vm.Operation} {binding : Binding},
      Vm.new config = .ok start → Vm.setupBinding binding (Vm.runAll before start) = .ok () bound →
      ∀ ops ops', ops ++ ops' = before ++ .setup binding :: after →
        let mid := Vm.runAll ops start
        let last := Vm.runAll ops' mid
        (last.globals.map (·.1)).Nodup ∧ last.pc.width = config.pcBits ∧
          ∀ name, (∀ i, mid.varId? name = some i → last.varId? name = some i) ∧
            ∀ x, mid.get? name = some x → ∃ y, last.get? name = some y ∧ y.sort = x.sort) ∧
    ∀ {p : Profile} {pc : Register} {config : VmConfig} {lifter : Lifter} {s₀ s : Session}, p.validate = .ok () →
      p.pcRegister? = some pc → pc.size = config.pcBits → Session.new p config lifter = .ok s₀ → s₀.Leads s →
        ∀ {σ : Type} [Bus σ] {lifted : Lifted} {bus : σ} {vm : Vm} {m : Machine σ},
          Sync.fromPhysical s.regs s.vm = .ok () vm → Machine.step lifted insnBytes ⟨vm, bus⟩ = .ok () m →
          ∃ regs, Sync.toPhysical m.vm s.regs = .ok true regs := by
  constructor
  · intro config start bound before after binding hnew hset ops ops' hops
    obtain ⟨hmid, hlast⟩ := Vm.later_of_history hnew hset hops
    obtain ⟨hpos, rfl⟩ := Vm.new_eq_ok hnew
    refine ⟨?_, ?_, fun name => ⟨fun i => hlast.varId?, fun x => hlast.sort⟩⟩
    · rw [← Vm.names_declared]
      exact hlast.sound.nodup
    · rw [hlast.sound.pc, hlast.config, hmid.config]
  · intro p pc config lifter s₀ s hp hpc hsize hnew hleads σ _ lifted bus vm m hload hstep
    exact hleads.toPhysical (Profile.valid_of_validate hp) hnew hpc hsize hload hstep

/-- A register file of another profile, in which the register has 8 bits, and assignments of other sorts leave a variable
of 32 bits in its place; an instruction of a session over the same registers is written back exactly. -/
theorem sorts_never_drift_foreign :
    let p : Profile := ⟨[⟨"r0", 0, 32, .gpr⟩, ⟨"pc", 32, 32, .gpr⟩, ⟨"t", 64, 1, .gpr⟩], some "pc"⟩
    let foreign : RegisterFile := .zeros ⟨[⟨"r0", 0, 8, .gpr⟩], none⟩
    let before : List Vm.Operation := [.addGlobal "x" (.bits (.ofNat 8 5 (by decide)))]
    let after : List Vm.Operation := [.fromPhysical foreign, .set "r0" (.bool true),
      .exec (Effect.setGlobal "r0" (.const 8 7)) (LinearMemory.zeros 4)]
    p.validate = .ok () ∧
      (∃ start bound last x, Vm.new {} = .ok start ∧ Vm.setupBinding (.derive p) (Vm.runAll before start) = .ok () bound ∧
        last = Vm.runAll after bound ∧ last.varId? "r0" = some 2 ∧ last.get? "r0" = some x ∧ x.sort = .bits 32) ∧
      ∃ s vm m regs, Session.new p {} lift = .ok s ∧ Sync.fromPhysical s.regs s.vm = .ok () vm ∧
        Machine.step (.effect .nop) insnBytes ⟨vm, LinearMemory.zeros 4⟩ = .ok () m ∧
        Sync.toPhysical m.vm s.regs = .ok true regs := by
  intro p foreign before after
  have hp : p.validate = .ok () := by decide
  refine ⟨hp, ?_, ?_⟩
  · let start : Vm := { config := {}, pc := .zero 32 (by decide) }
    let bound : Vm := { start with
      globals := [("x", .bits (.ofNat 8 5 (by decide))), ("t", .bool false), ("r0", .bits (.zero 32 (by decide)))]
      binding := some [⟨⟨"t", 1⟩, true⟩, ⟨⟨"r0", 32⟩, true⟩] }
    have hnew : Vm.new {} = .ok start := rfl
    have hset : Vm.setupBinding (.derive p) (Vm.runAll before start) = .ok () bound := rfl
    have hmid : Vm.runAll (before ++ [.setup (.derive p)]) start = bound := rfl
    obtain ⟨-, -, hnames⟩ := sorts_never_drift.1 hnew hset (before ++ [.setup (.derive p)]) after rfl
    rw [hmid] at hnames
    obtain ⟨hid, hsort⟩ := hnames "r0"
    obtain ⟨x, hx, hs⟩ := hsort _ rfl
    exact ⟨start, bound, _, x, hnew, hset, rfl, hid 2 (by decide), hx, hs⟩
  · let s : Session := ⟨{
      config := {}
      pc := .zero 32 (by decide)
      globals := [("t", .bool false), ("r0", .bits (.zero 32 (by decide)))]
      binding := some [⟨⟨"t", 1⟩, true⟩, ⟨⟨"r0", 32⟩, true⟩] }, .zeros p, lift⟩
    have hs : Session.new p {} lift = .ok s := rfl
    have hload := eq_ok_iff.2 ⟨(by decide +kernel : outcome (Sync.fromPhysical s.regs s.vm) = .ok ()), rfl⟩
    let run := Machine.step (.effect .nop) insnBytes ⟨final (Sync.fromPhysical s.regs s.vm), LinearMemory.zeros 4⟩
    have hstep := eq_ok_iff.2 ⟨(by decide +kernel : outcome run = .ok ()), rfl⟩
    obtain ⟨regs, hregs⟩ := sorts_never_drift.2 hp (by decide : p.pcRegister? = some ⟨"pc", 32, 32, .gpr⟩) rfl hs .refl
      hload hstep
    exact ⟨s, _, _, regs, hs, hload, hstep, hregs⟩

end SuperH
