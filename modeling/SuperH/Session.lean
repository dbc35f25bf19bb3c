import SuperH.Lift.Basic
import SuperH.Vm.Exec
import SuperH.Vm.Sync

/-!
# Sessions

A session drives a register file through the interpreter, one instruction at a time: it loads the
interpreter from the registers, lifts the instruction at the program counter, runs its effect, and
writes the registers back.

* `Session.new`, `Session.sh4` : a session over fresh registers;
* `Computer.execute` : runs a decoded instruction; `Computer.step` fetches and decodes it first;
* `Computer.runUntil` : steps until the program counter reaches an address.

A call that ends in a trap leaves the session and the memory as far as it came. An exception is
reported after its instruction is complete; any other trap leaves the registers alone.
-/

namespace SuperH

/-- The bytes of an instruction. -/
def insnBytes : Nat := 2

/-- Why a session stopped. -/
inductive Trap where
  | invalidInstruction (pc : Address)
  | bus (addr : Address) (cause : BusError)
  | lift (pc : Address) (cause : LiftError)
  | exception (pc : Address) (name : String)
  | vm (cause : VmError)
  | sync (cause : SyncError)
  deriving DecidableEq

def Trap.message : Trap → String
  | .invalidInstruction pc => "Invalid instruction at " ++ addressText pc
  | .bus addr cause => "Bus error at " ++ addressText addr ++ ": " ++ cause.message
  | .lift pc cause => "Cannot lift instruction at " ++ addressText pc ++ ": " ++ cause.message
  | .exception pc name => "Exception `" ++ name ++ "` at " ++ addressText pc
  | .vm cause => cause.message
  | .sync cause => cause.message

/-- Registers, the interpreter that works on them, and the meaning of instructions. -/
structure Session where
  vm : Vm
  regs : RegisterFile
  lifter : Lifter

namespace Session

/-- A session over a profile's registers, all zero, of which the derived ones are bound. -/
def new (profile : Profile) (config : VmConfig) (lifter : Lifter) :
    Except (Failure VmError) Session := do
  let vm ← (Vm.new config).mapError .fault
  match Vm.setupBinding (Binding.derive profile) vm with
  | .ok () vm => return ⟨vm, .zeros profile, lifter⟩
  | .error e _ => throw e

def sh4 (bigEndian : Bool) : Except (Failure VmError) Session :=
  new Cpu.profile (Cpu.vmConfig bigEndian) lift

/-- The address in the program counter, or zero without one. -/
def pc (session : Session) : Except Fault Address :=
  return BitVec.ofNat 32 ((← session.regs.pc).getD 0)

/-- What an instruction at an address means to the interpreter. -/
def liftAt (session : Session) (insn : Insn) (pc : Address) : Except Trap Lifted :=
  match session.lifter insn pc.toNat session.vm.privileged with
  | .ok lifted => .ok lifted
  | .error (.invalidInstruction _) => .error (.invalidInstruction pc)
  | .error cause => .error (.lift pc cause)

end Session

/-- A session and the memory that it works on. -/
structure Computer (σ : Type) where
  session : Session
  bus : σ

namespace Computer

variable {σ : Type}

/-- A run of a computer. -/
abbrev Run (σ : Type) := EStateM (Failure Trap) (Computer σ)

/-! ## Runs of a part -/

/-- A run of the registers. -/
def onRegs {α : Type} (x : EStateM Fault RegisterFile α) : Run σ α := fun s =>
  match x s.session.regs with
  | .ok a regs => .ok a { s with session.regs := regs }
  | .error f regs => .error (.fault f) { s with session.regs := regs }

/-- A run of the interpreter. -/
def onVm {ε α : Type} (trap : ε → Trap) (x : EStateM (Failure ε) Vm α) : Run σ α := fun s =>
  match x s.session.vm with
  | .ok a vm => .ok a { s with session.vm := vm }
  | .error e vm => .error (e.map trap) { s with session.vm := vm }

/-- A run of the interpreter and the memory. -/
def onMachine {α : Type} (x : SuperH.Run σ α) : Run σ α := fun s =>
  match x ⟨s.session.vm, s.bus⟩ with
  | .ok a m => .ok a { s with session.vm := m.vm, bus := m.bus }
  | .error e m => .error (e.map .vm) { s with session.vm := m.vm, bus := m.bus }

/-- A run of the memory. -/
def onBus {α : Type} (addr : Address) (x : EStateM BusError σ α) : Run σ α := fun s =>
  match x s.bus with
  | .ok a bus => .ok a { s with bus }
  | .error e bus => .error (.error (.bus addr e)) { s with bus }

/-! ## Instructions -/

/-- Sets the program counter, if there is one. -/
def reset (pc : Address) : Run σ Bool := onRegs (RegisterFile.setPc pc.toNat)

variable [Bus σ]

/-- Runs a decoded instruction at the program counter. -/
def execute (insn : Insn) : Run σ Unit := do
  let regs := (← get).session.regs
  onVm .sync (Sync.fromPhysical regs)
  let session := (← get).session
  let pc : Address := BitVec.ofNat 32 session.vm.pc.low64
  let lifted ← Failure.ofError (session.liftAt insn pc)
  onMachine (Machine.step lifted insnBytes)
  let vm := (← get).session.vm
  let _ ← onRegs (Sync.toPhysical vm)
  let events ← onVm .vm Vm.takeEvents
  match events with
  | name :: _ => throw (.error (.exception pc name))
  | [] => pure ()

/-- Fetches, decodes and runs the instruction at the program counter. -/
def step (decode : UInt16 → Option Insn) : Run σ Unit := do
  let pc ← (← get).session.pc
  let word ← onBus pc (Bus.read16 pc)
  match decode word with
  | some insn => execute insn
  | none => throw (.error (.invalidInstruction pc))

/-- Steps until the program counter is `stop`, at most so many times; answers how many steps there
were, counted from `done`. -/
def runUntil (decode : UInt16 → Option Insn) (stop : Address) (done : Nat) : Nat → Run σ Nat
  | 0 => return done
  | n + 1 => do
    let pc ← (← get).session.pc
    if pc = stop then return done
    step decode
    runUntil decode stop (done + 1) n

end Computer
end SuperH
