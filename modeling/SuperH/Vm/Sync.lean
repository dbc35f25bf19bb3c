import SuperH.Register.File
import SuperH.Vm.Basic

/-!
# Synchronisation

Moves the program counter and the bound registers between a register file and the interpreter.

* `toPhysical vm` : writes what it can into a register file and answers whether every write was
  exact;
* `fromPhysical regs` : loads the interpreter; a register that the file does not have reads as zero,
  and bound names without a variable are reported after everything else is loaded.
-/

namespace SuperH

/-- Why the interpreter could not be loaded. -/
inductive SyncError where
  | noBinding
  | unboundVariables (names : List String)
  deriving DecidableEq, Repr

def SyncError.message : SyncError → String
  | .noBinding => "no register binding is set up"
  | .unboundVariables names =>
    "no IL variable exists for bound registers: " ++ ", ".intercalate names

namespace Sync

/-- The low `width` bits of a value, filled up with zeros. -/
def fit (v : Bits) (width : Nat) : Except Fault Bits :=
  Bits.sized width fun h => v.setWidth width h

/-- The zero of a register. -/
def blank (width : Nat) : Except Fault Bits := Bits.sized width fun h => Bits.zero width h

/-! ## Writing back -/

/-- A write to a register file. -/
abbrev Write := EStateM Fault RegisterFile

/-- Writes the program counter; answers whether it fits exactly. -/
def writePc (vm : Vm) : Write Bool := do
  match (← get).profile.pcRegister? with
  | none => return false
  | some r =>
    let v ← MonadExcept.ofExcept (fit vm.pc r.size)
    let written ← RegisterFile.setBits r.name v
    return r.size == vm.pc.width && written

/-- Writes one bound register: its variable's value, or zero if it has none. -/
def writeBound (vm : Vm) (b : BoundVar) : Write Bool := do
  match (← get).profile.get? b.register.name with
  | none => return false
  | some r =>
    match (if b.resolved then vm.get? b.register.name else none) with
    | none =>
      let zero ← MonadExcept.ofExcept (blank r.size)
      let _ ← RegisterFile.setBits b.register.name zero
      return false
    | some value =>
      let v ← MonadExcept.ofExcept (fit value.toBits r.size)
      let written ← RegisterFile.setBits b.register.name v
      return value.width == r.size && written

/-- Writes bound registers in order. -/
def writeAllBound (vm : Vm) : List BoundVar → Write Bool
  | [] => return true
  | b :: bs => do
    let first ← writeBound vm b
    let rest ← writeAllBound vm bs
    return first && rest

/-- Writes the program counter and every bound variable; answers whether nothing had to be
repaired. -/
def toPhysical (vm : Vm) : Write Bool := do
  let pc ← writePc vm
  match vm.binding with
  | none => return false
  | some bound =>
    let rest ← writeAllBound vm bound
    return pc && rest

/-! ## Loading -/

/-- A load of the interpreter. -/
abbrev Load := EStateM (Failure SyncError) Vm

/-- Loads the program counter, if the register file has one. -/
def loadPc (regs : RegisterFile) : Load Unit := do
  match regs.profile.pc with
  | none => pure ()
  | some name =>
    match ← regs.getBits name with
    | none => pure ()
    | some v =>
      let vm ← get
      let pc ← fit v vm.config.pcBits
      set { vm with pc }

/-- The content of a bound register, cut or extended to the bound size. -/
def boundContent (regs : RegisterFile) (b : Bound) : Except Fault Bits := do
  match ← regs.getBits b.name with
  | some v => fit v b.size
  | none => blank b.size

/-- The new value of a variable that holds `old`: a truth value takes the lowest bit. -/
def loaded (old : Option Value) (v : Bits) : Value :=
  match old with
  | some (.bool _) => .bool v.lsb
  | _ => .bits v

/-- Loads bound registers in order and answers the names that have no variable. -/
def loadBound (regs : RegisterFile) : List BoundVar → Load (List String)
  | [] => return []
  | b :: bs => do
    if b.resolved then
      let v ← boundContent regs b.register
      modify fun vm => vm.replace b.register.name (loaded (vm.get? b.register.name) v)
      loadBound regs bs
    else
      let names ← loadBound regs bs
      return b.register.name :: names

/-- Loads the program counter and every bound variable. -/
def fromPhysical (regs : RegisterFile) : Load Unit := do
  loadPc regs
  match (← get).binding with
  | none => throw (.error .noBinding)
  | some bound =>
    let names ← loadBound regs bound
    if !names.isEmpty then throw (.error (.unboundVariables names))

end Sync
end SuperH
