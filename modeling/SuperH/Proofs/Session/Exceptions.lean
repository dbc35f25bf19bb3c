import SuperH.Memory.Linear
import SuperH.Proofs.Session.Live

/-!
# Exceptions and the calls that raised them

The exceptions that an effect raises wait in a queue. A call that completes reports the oldest and drops the others; a
call that fails reports none and leaves the queue as it is.

* `Computer.raised` : what a call appends to the queue;
* `Computer.execute_queue` : what a call reports and leaves of the queue;
* `Session.History` : the sessions that calls with any lifter lead to, and what those calls raised and answered;
* `exception_of_queue` : which exception a call of such a session reports.
-/

namespace SuperH

/-- Loading leaves the exceptions alone that wait. -/
theorem Sync.fromPhysical_keeps_events {regs : RegisterFile} {events : List String} :
    Keeps (fun vm : Vm => vm.events = events) (fromPhysical regs) :=
  fromPhysical_keeps (fun _ h => h) fun _ _ _ _ h => h

/-- An instruction appends to the exceptions that wait. -/
theorem Machine.step_appends {σ : Type} [Bus σ] (events : List String) (lifted : Lifted) (size : Nat) :
    Keeps (fun m : Machine σ => events <+: m.vm.events) (step lifted size) := by
  have hstable : Policy.any.Stable fun vm => events <+: vm.events :=
    ⟨id, fun _ _ _ => id, id, fun _ => id, id, fun _ h => h.trans (List.prefix_append _ _)⟩
  exact step_keeps Policy.any_refutes hstable lifted.within_any size

/-! ## One call -/

namespace Computer

variable {σ : Type} [Bus σ]

/-- The interpreter as a call loads it from the registers. -/
def loaded (s : Computer σ) : Vm := final (Sync.fromPhysical s.session.regs s.session.vm)

/-- The address of the instruction that a call runs. -/
def address (s : Computer σ) : Address := fetchAddress s.loaded

/-- The interpreter after the instruction of a call, as far as it came. -/
def interpreted (insn : Insn) (s : Computer σ) : Vm :=
  match Sync.fromPhysical s.session.regs s.session.vm with
  | .error _ vm => vm
  | .ok () vm => match { s.session with vm := vm }.liftAt insn (fetchAddress vm) with
    | .error _ => vm
    | .ok lifted => (final (Machine.step lifted insnBytes ⟨vm, s.bus⟩)).vm

/-- The exceptions that a call raises. -/
def raised (insn : Insn) (s : Computer σ) : List String :=
  (s.interpreted insn).events.drop s.session.vm.events.length

/-- What a call raises comes after what waits already. -/
theorem events_interpreted (insn : Insn) (s : Computer σ) :
    (s.interpreted insn).events = s.session.vm.events ++ s.raised insn := by
  have hload : (final (Sync.fromPhysical s.session.regs s.session.vm)).events = s.session.vm.events :=
    Sync.fromPhysical_keeps_events.final rfl
  have hprefix : s.session.vm.events <+: (s.interpreted insn).events := by
    unfold interpreted
    split
    · rename_i h
      rw [h] at hload
      exact hload ▸ List.prefix_rfl
    · rename_i vm h
      rw [h] at hload
      have hload : vm.events = s.session.vm.events := hload
      split
      · exact hload ▸ List.prefix_rfl
      · exact (Machine.step_appends _ _ _).final (hload ▸ List.prefix_rfl)
  exact (List.prefix_iff_eq_append.1 hprefix).symm

theorem liftAt_ne_exception {session : Session} {insn : Insn} {pc : Address} {trap : Trap}
    (h : session.liftAt insn pc = .error trap) (pc' : Address) (name : String) : trap ≠ .exception pc' name := by
  unfold Session.liftAt at h
  split at h <;> cases h <;> exact nofun

/-- A call reports the first exception that waits at its end, or one that waits already, and drops the others. If it
fails in any other way, they go on waiting. -/
theorem execute_queue (insn : Insn) (s : Computer σ) :
    Satisfies (fun _ t => s.session.vm.events ++ s.raised insn = [] ∧ t.session.vm.events = [])
      (fun failure t => match failure with
        | .error (.exception pc name) => (s.session.vm.events ++ s.raised insn).head? = some name ∧ pc = s.address ∧
            t.session.vm.events = []
        | _ => t.session.vm.events = s.session.vm.events ++ s.raised insn) (execute insn s) := by
  rw [← events_interpreted, execute_eq]
  unfold interpreted address loaded
  cases hload : Sync.fromPhysical s.session.regs s.session.vm with
  | error e vm => cases e <;> exact rfl
  | ok u vm =>
    dsimp only [final]
    cases hlift : { s.session with vm := vm }.liftAt insn (fetchAddress vm) with
    | error trap =>
      have hne := liftAt_ne_exception hlift
      cases trap with
      | exception pc name => exact absurd rfl (hne pc name)
      | _ => exact rfl
    | ok lifted =>
      dsimp only
      cases hstep : Machine.step lifted insnBytes (⟨vm, s.bus⟩ : Machine σ) with
      | error e m => cases e <;> exact rfl
      | ok u m =>
        dsimp only
        cases hback : Sync.toPhysical m.vm s.session.regs with
        | error f regs => exact rfl
        | ok whole regs =>
          dsimp only
          cases hevents : m.vm.events with
          | nil => exact ⟨rfl, rfl⟩
          | cons name names => exact ⟨rfl, rfl, rfl⟩

theorem reported {insn : Insn} {s : Computer σ} {pc : Address} {name : String}
    (h : outcome (execute insn s) = .error (.error (.exception pc name))) :
    (s.session.vm.events ++ s.raised insn).head? = some name ∧ pc = s.address := by
  have hqueue := execute_queue insn s
  rw [eq_error_iff.2 ⟨h, rfl⟩] at hqueue
  exact ⟨hqueue.1, hqueue.2.1⟩

end Computer

/-! ## Many calls -/

/-- What a call raised and answered. -/
structure Call where
  raised : List String
  answer : Except (Failure Trap) Unit

namespace Call

/-- The instruction ran to its end, and its call answered or reported an exception. -/
def completed (call : Call) : Bool :=
  match call.answer with
  | .ok () | .error (.error (.exception _ _)) => true
  | _ => false

/-- The exceptions that wait after calls, of which the latest comes first: what the calls since the last completed one
have raised. -/
def waiting : List Call → List String
  | [] => []
  | call :: calls => if call.completed then [] else waiting calls ++ call.raised

theorem waiting_eq_nil {calls : List Call} (h : ∀ call ∈ calls, call.completed = false → call.raised = []) :
    waiting calls = [] := by
  induction calls with
  | nil => rfl
  | cons call calls ih =>
    rw [waiting]
    split
    · rfl
    · have hcall := h call (List.mem_cons_self ..) (Bool.eq_false_of_not_eq_true ‹_›)
      rw [ih fun c hc => h c (List.mem_cons_of_mem _ hc), hcall, List.append_nil]

end Call

open Call (waiting)

namespace Session

/-- The sessions that calls lead to, with any instructions and on any memories, and any writes to the registers between
them, beside what the calls raised and answered. -/
inductive History (p : Profile) (config : VmConfig) (lifter : Lifter) : List Call → Session → Prop
  | start {s : Session} : new p config lifter = .ok s → History p config lifter [] s
  | write {calls : List Call} {s : Session} (regs : RegisterFile) : History p config lifter calls s →
      History p config lifter calls { s with regs }
  | execute {calls : List Call} {s : Session} {σ : Type} [Bus σ] (insn : Insn) (bus : σ) :
      History p config lifter calls s →
      History p config lifter (⟨Computer.raised insn ⟨s, bus⟩, outcome (Computer.execute insn ⟨s, bus⟩)⟩ :: calls)
        (final (Computer.execute insn ⟨s, bus⟩)).session

variable {p : Profile} {config : VmConfig} {lifter : Lifter} {calls : List Call} {s : Session} {σ : Type} [Bus σ]

theorem events_of_new (h : new p config lifter = .ok s) : s.vm.events = [] := by
  obtain ⟨vm, vm', hvm, hset, rfl⟩ := new_eq_ok h
  obtain ⟨-, -, -, rfl⟩ := Vm.setupBinding_eq_ok hset
  unfold Vm.new at hvm
  split at hvm
  · cases hvm
    rfl
  · cases hvm

/-- A call turns what waits before it into what waits after it. -/
theorem events_execute (insn : Insn) (bus : σ) (h : s.vm.events = waiting calls) :
    (final (Computer.execute insn ⟨s, bus⟩)).session.vm.events =
      waiting (⟨Computer.raised insn ⟨s, bus⟩, outcome (Computer.execute insn ⟨s, bus⟩)⟩ :: calls) := by
  have hqueue := Computer.execute_queue insn ⟨s, bus⟩
  rw [waiting, ← h]
  cases hcall : Computer.execute insn ⟨s, bus⟩ with
  | ok u t =>
    rw [hcall] at hqueue
    exact hqueue.2
  | error failure t =>
    rw [hcall] at hqueue
    rcases failure with trap | fault
    · cases trap with
      | exception pc name => exact hqueue.2.2
      | _ => exact hqueue
    · exact hqueue

theorem History.events (h : History p config lifter calls s) : s.vm.events = waiting calls := by
  induction h with
  | start h => exact events_of_new h
  | write regs h ih => exact ih
  | execute insn bus h ih => exact events_execute insn bus ih

/-- With its own lifter, whose effects raise nothing, the machine reports an exception by the call that raised it. -/
theorem Reachable.exception_own {bigEndian : Bool} (hs : s.Reachable bigEndian) {insn : Insn} {bus : σ} {pc : Address}
    {name : String} (h : outcome (Computer.execute insn ⟨s, bus⟩) = .error (.error (.exception pc name))) :
    (Computer.raised insn ⟨s, bus⟩).head? = some name ∧ pc = Computer.address ⟨s, bus⟩ := by
  have hevents : s.vm.events = [] := hs.live.ready.events
  have hreported := Computer.reported h
  rwa [hevents] at hreported

end Session

/-- A call reports the oldest exception that waits at its end, with the address of its own instruction. This is one that
an earlier call raised if that call failed and none has completed since, and otherwise one that this call raised. Where
a call answers without an exception, none waited and it raised none. -/
theorem exception_of_queue {p : Profile} {config : VmConfig} {lifter : Lifter} {calls : List Call} {s : Session}
    (h : Session.History p config lifter calls s) {σ : Type} [Bus σ] (insn : Insn) (bus : σ) :
    let raised := Computer.raised insn ⟨s, bus⟩
    let answer := outcome (Computer.execute insn ⟨s, bus⟩)
    (∀ pc name, answer = .error (.error (.exception pc name)) →
      (waiting calls ++ raised).head? = some name ∧ pc = Computer.address ⟨s, bus⟩) ∧
    ((∀ call ∈ calls, call.completed = false → call.raised = []) →
      ∀ pc name, answer = .error (.error (.exception pc name)) → raised.head? = some name) ∧
    (answer = .ok () → waiting calls = [] ∧ raised = []) := by
  intro raised answer
  have hreport (pc : Address) (name : String) (hanswer : answer = .error (.error (.exception pc name))) :
      (waiting calls ++ raised).head? = some name ∧ pc = Computer.address ⟨s, bus⟩ :=
    h.events ▸ Computer.reported hanswer
  refine ⟨hreport, ?_, ?_⟩
  · intro hcalls pc name hanswer
    have hhead := (hreport pc name hanswer).1
    rwa [Call.waiting_eq_nil hcalls] at hhead
  · intro hanswer
    have hqueue := Computer.execute_queue insn ⟨s, bus⟩
    rw [eq_ok_iff.2 ⟨hanswer, rfl⟩] at hqueue
    exact List.append_eq_nil_iff.1 (h.events ▸ hqueue.1)

/-- NOP does nothing, and every other instruction raises an exception and then fails. -/
def failingLifter : Lifter := fun insn _ _ =>
  .ok (.effect (if insn.mnemonic = .nop then .nop else .seq [.raise "X", .jmp (.global "nowhere")]))

/-- An instruction that raises an exception and fails, and a NOP at another address after it. -/
theorem exception_of_queue_nop :
    let s : Session := ⟨Cpu.initialVm false, .zeros Cpu.profile, failingLifter⟩
    let bus := LinearMemory.zeros 4
    let failed := (final (Computer.execute { mnemonic := .add } ⟨s, bus⟩)).session
    let moved : Session := { failed with regs := final (RegisterFile.setPc 8 failed.regs) }
    let calls : List Call := [⟨["X"], .error (.error (.vm (.unknownVariable .global "nowhere")))⟩]
    Session.History Cpu.profile (Cpu.vmConfig false) failingLifter calls moved ∧
      (waiting calls ++ Computer.raised { mnemonic := .nop } ⟨moved, bus⟩).head? = some "X" := by
  intro s bus failed moved calls
  have hraised : Computer.raised { mnemonic := .add } ⟨s, bus⟩ = ["X"] := by decide +kernel
  have hfailed : outcome (Computer.execute { mnemonic := .add } ⟨s, bus⟩) =
      .error (.error (.vm (.unknownVariable .global "nowhere"))) := by decide +kernel
  have hs : Session.History Cpu.profile (Cpu.vmConfig false) failingLifter [] s := .start (Session.new_eq false failingLifter)
  have hmoved : Session.History Cpu.profile (Cpu.vmConfig false) failingLifter calls moved := by
    have hcall := hs.execute { mnemonic := .add } bus
    rw [hraised, hfailed] at hcall
    exact hcall.write _
  have hanswer : outcome (Computer.execute { mnemonic := .nop } ⟨moved, bus⟩) = .error (.error (.exception 8 "X")) := by
    decide +kernel
  exact ⟨hmoved, ((exception_of_queue hmoved { mnemonic := .nop } bus).1 8 "X" hanswer).1⟩

/-- The NOP is reported to have raised the exception. -/
theorem exception_blamed_on_nop :
    let s : Session := ⟨Cpu.initialVm false, .zeros Cpu.profile, failingLifter⟩
    let bus := LinearMemory.zeros 4
    Session.new Cpu.profile (Cpu.vmConfig false) failingLifter = .ok s ∧
      ∃ failed, Computer.execute { mnemonic := .add } ⟨s, bus⟩ =
          .error (.error (.vm (.unknownVariable .global "nowhere"))) failed ∧
        let moved : Session := { failed.session with regs := final (RegisterFile.setPc 8 failed.session.regs) }
        outcome (Computer.execute { mnemonic := .nop } ⟨moved, bus⟩) = .error (.error (.exception 8 "X")) ∧
          Computer.raised { mnemonic := .nop } ⟨moved, bus⟩ = [] := by
  intro s bus
  have hfailed : outcome (Computer.execute { mnemonic := .add } ⟨s, bus⟩) =
      .error (.error (.vm (.unknownVariable .global "nowhere"))) := by decide +kernel
  exact ⟨Session.new_eq false failingLifter, _, eq_error_iff.2 ⟨hfailed, rfl⟩, by decide +kernel, by decide +kernel⟩

end SuperH
