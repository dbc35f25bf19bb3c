import SuperH.Vm.Basic

/-!
# Evaluation and execution

* `eval vm e` : the value of an expression. It reads memory and changes no variable; operands are
  evaluated from left to right, all of them but the branch of an `ite` that is not taken;
* `exec e` : runs an effect on a machine, which is an interpreter and a bus;
* `step lifted size` : one instruction.

A run that fails leaves the machine as far as it came.
-/

namespace SuperH

/-- An interpreter and the memory it works on. -/
structure Machine (σ : Type) where
  vm : Vm
  bus : σ

/-- A run that reads memory. -/
abbrev Eval (σ : Type) := EStateM (Failure VmError) σ

/-- A run of a machine. -/
abbrev Run (σ : Type) := EStateM (Failure VmError) (Machine σ)

namespace Vm

variable {σ : Type} [Bus σ]

/-! ## Memory -/

def readByte (addr : Address) : Eval σ UInt8 :=
  EStateM.adaptExcept (fun cause => .error (.bus addr cause)) (Bus.read8 addr)

def writeByte (addr : Address) (b : UInt8) : Eval σ Unit :=
  EStateM.adaptExcept (fun cause => .error (.bus addr cause)) (Bus.write8 addr b)

/-- Reads bytes upwards from an address, which wraps around. -/
def readBytes : Address → Nat → Eval σ (List UInt8)
  | _, 0 => pure []
  | addr, n + 1 => do
    let b ← readByte addr
    let bs ← readBytes (addr + 1) n
    return b :: bs

/-- Writes bytes upwards from an address, which wraps around. -/
def writeBytes : Address → List UInt8 → Eval σ Unit
  | _, [] => pure ()
  | addr, b :: bs => do
    writeByte addr b
    writeBytes (addr + 1) bs

/-- The bytes of a value in memory order, or back. -/
def ordered (config : VmConfig) (bytes : List UInt8) : List UInt8 :=
  if config.bigEndian then bytes.reverse else bytes

/-- Reads so many bits. -/
def load (config : VmConfig) (addr : Address) (bits : Nat) : Eval σ Bits := do
  if bits = 0 ∨ bits % 8 ≠ 0 then throw (.error (.unalignedAccess bits))
  let bytes ← readBytes addr (bits / 8)
  Bits.ofLeBytes (ordered config bytes)

/-- Writes a bit-vector byte by byte. -/
def store (config : VmConfig) (addr : Address) (v : Bits) : Eval σ Unit := do
  if v.width % 8 ≠ 0 then throw (.error (.unalignedAccess v.width))
  writeBytes addr (ordered config v.toLeBytes)

/-- The bus address of an address value. -/
def busAddress (config : VmConfig) (addr : Bits) : Except VmError Address :=
  if addr.width ≠ config.memKeyBits then .error (.widthMismatch addr.width config.memKeyBits)
  else
    match addr.below? (2 ^ 32) with
    | some a => .ok (BitVec.ofNat 32 a)
    | none => .error (.addressOverflow addr)

/-! ## Expressions -/

/-- Refuses operands of different widths. -/
def requireSameWidth (x y : Nat) : Except VmError Unit :=
  if x = y then .ok () else .error (.widthMismatch x y)

/-- The number of places that a shift by `amount` moves; one that has no 64 bits counts as the
largest that has. -/
def shiftAmount (amount : Bits) : Nat := (amount.below? (2 ^ 64)).getD (2 ^ 64 - 1)

/-- The value cut or extended to a positive width. -/
def resize (signed : Bool) (width : Nat) (h : 0 < width) (v : Bits) : Bits :=
  if signed then v.signExtend width h else v.setWidth width h

def eval (vm : Vm) : Expr → Eval σ Value
  | .bool b => return .bool b
  | .bits v => return .bits v
  | .var v => Failure.ofError (vm.lookup v)
  | .ite c t e => do
    let b ← Failure.ofError (← eval vm c).asBool
    if b then eval vm t else eval vm e
  | .not x => do
    let b ← Failure.ofError (← eval vm x).asBool
    return .bool !b
  | .logic op x y => do
    let x ← Failure.ofError (← eval vm x).asBool
    let y ← Failure.ofError (← eval vm y).asBool
    return .bool (op.apply x y)
  | .msb x => do
    let v ← Failure.ofError (← eval vm x).asBits
    return .bool v.msb
  | .lsb x => do
    let v ← Failure.ofError (← eval vm x).asBits
    return .bool v.lsb
  | .isZero x => do
    let v ← Failure.ofError (← eval vm x).asBits
    return .bool v.isZero
  | .cmp .eq x y => do
    let x ← eval vm x
    let y ← eval vm y
    Failure.ofError (requireSameWidth x.width y.width)
    return .bool (x.toBits = y.toBits)
  | .cmp op x y => do
    let x ← Failure.ofError (← eval vm x).asBits
    let y ← Failure.ofError (← eval vm y).asBits
    Failure.ofError (requireSameWidth x.width y.width)
    let unsigned ← x.ucmp y
    let signed ← x.scmp y
    return .bool (op.holds unsigned signed)
  | .arith op x y => do
    let x ← Failure.ofError (← eval vm x).asBits
    let y ← Failure.ofError (← eval vm y).asBits
    Failure.ofError (requireSameWidth x.width y.width)
    return .bits (← op.apply x y)
  | .neg x => do
    let v ← Failure.ofError (← eval vm x).asBits
    return .bits (-v)
  | .complement x => do
    let v ← Failure.ofError (← eval vm x).asBits
    return .bits (~~~v)
  | .shift op value amount => do
    let v ← Failure.ofError (← eval vm value).asBits
    let n ← eval vm amount
    return .bits (op.apply v (shiftAmount n.toBits))
  | .cast signed width value =>
    if h : 0 < width then do
      let v ← eval vm value
      return .bits (resize signed width h v.toBits)
    else throw (.error .zeroWidth)
  | .loadBits bits addr => do
    let a ← Failure.ofError (← eval vm addr).asBits
    let a ← Failure.ofError (busAddress vm.config a)
    return .bits (← load vm.config a bits.toNat)

end Vm

namespace Machine

variable {σ : Type}

/-- Runs a computation on the bus, which sees the interpreter's state. -/
def onBus {α : Type} (x : Vm → Eval σ α) : Run σ α := fun m =>
  match x m.vm m.bus with
  | .ok a bus => .ok a { m with bus }
  | .error e bus => .error e { m with bus }

/-- Runs a computation on the interpreter's state. -/
def onVm {α : Type} (x : VmM α) : Run σ α := fun m =>
  match x m.vm with
  | .ok a vm => .ok a { m with vm }
  | .error e vm => .error e { m with vm }

variable [Bus σ]

def value (e : Expr) : Run σ Value := onBus fun vm => vm.eval e

/-- The bus address that an expression names. -/
def address (e : Expr) : Run σ Address := onBus fun vm => do
  let a ← Failure.ofError (← vm.eval e).asBits
  Failure.ofError (Vm.busAddress vm.config a)

mutual

def exec : Effect → Run σ Unit
  | .nop => pure ()
  | .empty => pure ()
  | .set v e => do
    let x ← value e
    onVm (Vm.assign v x)
  | .store a e => do
    let addr ← address a
    let x ← value e
    onBus fun vm => Vm.store vm.config addr x.toBits
  | .seq es => execAll es
  | .branch c t e => do
    let x ← value c
    let b ← Failure.ofError x.asBool
    if b then exec t else exec e
  | .jmp target => do
    let x ← value target
    onVm (Vm.jump x.toBits)
  | .raise name => onVm (Vm.raise name)

def execAll : List Effect → Run σ Unit
  | [] => pure ()
  | e :: es => do
    exec e
    execAll es

end

/-- Runs what lifting an instruction of `size` bytes yields. -/
def step (lifted : Lifted) (size : Nat) : Run σ Unit := do
  onVm Vm.begin
  match lifted with
  | .effect e => exec e
  | .exception name => onVm (Vm.raise name)
  onVm (Vm.advance size)

end Machine
end SuperH
