import SuperH.Failure
import SuperH.Memory.Bus
import SuperH.Register.Binding
import SuperH.Vm.Value

/-!
# The interpreter's state

A `Vm` holds the program counter, the global variables in the order in which they were made, the
variables of the current instruction, the exceptions raised so far and the register binding. A
global variable keeps its sort and width.

* `addGlobal`, `setGlobal`, `setTemp`, `lookup` : variables;
* `setupBinding` makes a variable for each bound register, `attachBinding` adopts those that exist;
* `raise`, `takeEvents` : exceptions; `setPc`, `jump` : the program counter.

An operation that fails keeps what it did before.
-/

namespace SuperH

/-- What an architecture fixes of the interpreter. -/
structure VmConfig where
  /-- width of the program counter -/
  pcBits : Nat := 32
  /-- byte order of loads and stores -/
  bigEndian : Bool := false
  /-- width of an address -/
  memKeyBits : Nat := 32
  deriving DecidableEq, Repr

/-- Why the interpreter stopped. -/
inductive VmError where
  | unknownVariable (scope : Scope) (name : String)
  | duplicateVariable (name : String)
  | typeMismatch (expected : ValueKind)
  | widthMismatch (left right : Nat)
  | zeroWidth
  | unalignedAccess (bits : Nat)
  | addressOverflow (addr : Bits)
  | bus (addr : Address) (cause : BusError)
  | bindingAlreadySet
  deriving DecidableEq

def VmError.message : VmError → String
  | .unknownVariable scope name => "unknown " ++ scope.name ++ " variable `" ++ name ++ "`"
  | .duplicateVariable name => "variable `" ++ name ++ "` already exists"
  | .typeMismatch expected => "type mismatch: expected a " ++ expected.name
  | .widthMismatch left right =>
    "width mismatch: " ++ toString left ++ " vs " ++ toString right ++ " bits"
  | .zeroWidth => "cast to a zero-width bit-vector"
  | .unalignedAccess bits => "memory access of " ++ toString bits ++ " bits is not byte sized"
  | .addressOverflow addr => "address " ++ addr.text ++ " does not fit the memory key"
  | .bus addr cause => "bus error at " ++ addressText addr ++ ": " ++ cause.message
  | .bindingAlreadySet => "a register binding is already set up"

namespace Value

/-- The truth value of a value that has to be one. -/
def asBool : Value → Except VmError Bool
  | .bool b => .ok b
  | .bits _ => .error (.typeMismatch .bool)

/-- The bit-vector of a value that has to be one. -/
def asBits : Value → Except VmError Bits
  | .bits v => .ok v
  | .bool _ => .error (.typeMismatch .bits)

/-- Whether a variable that holds `old` may be set to `new`: its sort and width stay. -/
def checkSort : (old new : Value) → Except VmError Unit
  | .bool _, .bool _ => .ok ()
  | .bits v, .bits w =>
    if v.width = w.width then .ok () else .error (.widthMismatch v.width w.width)
  | .bool _, .bits _ => .error (.typeMismatch .bool)
  | .bits _, .bool _ => .error (.typeMismatch .bits)

end Value

abbrev Env := List (String × Value)

/-- The variables with a new value for one of them. -/
def Env.assign (name : String) (value : Value) : Env → Env
  | [] => []
  | (n, old) :: env => if n == name then (n, value) :: env else (n, old) :: Env.assign name value env

/-- A bound register and whether it has a variable. -/
structure BoundVar where
  register : Bound
  resolved : Bool
  deriving DecidableEq, Repr

structure Vm where
  config : VmConfig
  pc : Bits
  /-- global variables, oldest first -/
  globals : Env := []
  /-- variables of the current instruction, latest assignment first -/
  temps : Env := []
  /-- exceptions that were raised and not taken, oldest first -/
  events : List String := []
  binding : Option (List BoundVar) := none
  /-- whether the current instruction has jumped -/
  jumped : Bool := false
  deriving DecidableEq

/-- A change of the interpreter's state. -/
abbrev VmM := EStateM (Failure VmError) Vm

namespace Vm

/-- An interpreter without variables, at address zero. -/
def new (config : VmConfig) : Except Fault Vm :=
  if h : 0 < config.pcBits then .ok { config, pc := .zero config.pcBits h } else .error .zeroWidth

/-! ## Variables -/

/-- The place of a global variable in the order of their making. -/
def varId? (vm : Vm) (name : String) : Option Nat := vm.globals.findIdx? (·.1 == name)

/-- The value of a global variable. -/
def get? (vm : Vm) (name : String) : Option Value := vm.globals.lookup name

/-- The value of a variable that has to exist. -/
def lookup (vm : Vm) (v : Var) : Except VmError Value :=
  let env := match v.scope with
    | .global => vm.globals
    | .temp => vm.temps
  match env.lookup v.name with
  | some value => .ok value
  | none => .error (.unknownVariable v.scope v.name)

/-- Gives a global variable a value of any sort. -/
def replace (vm : Vm) (name : String) (value : Value) : Vm :=
  { vm with globals := vm.globals.assign name value }

/-- Makes a global variable and answers its place. -/
def addGlobal (name : String) (value : Value) : VmM Nat := do
  let vm ← get
  if (vm.get? name).isSome then throw (.error (.duplicateVariable name))
  set { vm with globals := vm.globals ++ [(name, value)] }
  return vm.globals.length

/-- Gives an existing global variable a value of its sort. -/
def setGlobal (name : String) (value : Value) : VmM Unit := do
  let vm ← get
  match vm.get? name with
  | none => throw (.error (.unknownVariable .global name))
  | some old =>
    Failure.ofError (old.checkSort value)
    set (vm.replace name value)

def setTemp (name : String) (value : Value) : VmM Unit :=
  modify fun vm => { vm with temps := (name, value) :: vm.temps }

def assign (v : Var) (value : Value) : VmM Unit :=
  match v.scope with
  | .global => setGlobal v.name value
  | .temp => setTemp v.name value

/-! ## The register binding -/

/-- The first value of a bound register's variable: false for one bit, zero for more. -/
def initial (b : Bound) : Except Fault Value :=
  if b.size = 1 then .ok (.bool false)
  else if h : 0 < b.size then .ok (.bits (.zero b.size h)) else .error .zeroWidth

/-- Makes a variable for each bound register in turn. -/
def addBound : List Bound → VmM Unit
  | [] => pure ()
  | b :: bs => do
    let value ← initial b
    let _ ← addGlobal b.name value
    addBound bs

def requireUnbound : VmM Unit := do
  if (← get).binding.isSome then throw (.error .bindingAlreadySet)

/-- Binds registers to new variables. -/
def setupBinding (binding : Binding) : VmM Unit := do
  requireUnbound
  addBound binding.items
  modify fun vm => { vm with binding := some (binding.items.map (⟨·, true⟩)) }

/-- Binds registers to the variables that there are; a register without one stays unresolved. -/
def attachBinding (binding : Binding) : VmM Unit := do
  requireUnbound
  modify fun vm =>
    { vm with binding := some (binding.items.map fun b => ⟨b, (vm.get? b.name).isSome⟩) }

/-! ## Exceptions and the program counter -/

def raise (name : String) : VmM Unit :=
  modify fun vm => { vm with events := vm.events ++ [name] }

def takeEvents : VmM (List String) := do
  let vm ← get
  set { vm with events := [] }
  return vm.events

/-- Sets the program counter, cut or extended with zeros to its width. -/
def setPc (target : Bits) : VmM Unit := do
  let vm ← get
  if h : 0 < vm.config.pcBits then set { vm with pc := target.setWidth vm.config.pcBits h }
  else throw (.fault .zeroWidth)

/-- Goes to an address in place of the next instruction. -/
def jump (target : Bits) : VmM Unit := do
  setPc target
  modify fun vm => { vm with jumped := true }

/-- Forgets the variables and the jump of the instruction before. -/
def begin : VmM Unit := modify fun vm => { vm with temps := [], jumped := false }

/-- Moves past an instruction of `size` bytes unless it has jumped. -/
def advance (size : Nat) : VmM Unit := do
  let vm ← get
  if !vm.jumped then
    if h : 0 < vm.config.pcBits then
      let pc ← vm.pc.add (.ofNat vm.config.pcBits size h)
      set { vm with pc }
    else throw (.fault .zeroWidth)

end Vm
end SuperH
