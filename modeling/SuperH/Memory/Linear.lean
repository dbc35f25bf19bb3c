import SuperH.Memory.Bus
import SuperH.Json.Basic

/-!
# Linear memory

A flat memory mapped at a base address. Accesses of several bytes follow the memory's byte order,
and one that leaves the memory changes nothing.

* `offset` : the index of an access's first byte, if the whole access is mapped;
* `readBytes`, `writeBytes` : one access, its bytes least significant first;
* `load` : copies an image byte by byte.
-/

namespace SuperH

/-- A flat memory. -/
structure LinearMemory where
  bytes : Array UInt8
  base : Address := 0
  bigEndian : Bool := false
  deriving DecidableEq

namespace LinearMemory

/-- A memory of zeros. -/
def zeros (size : Nat) (base : Address := 0) (bigEndian : Bool := false) : LinearMemory :=
  ⟨Array.replicate size 0, base, bigEndian⟩

/-- The bytes that a memory may have at most. -/
def maxSize : Nat := 2 ^ 63 - 1

/-- A memory of zeros, if it may have that size. -/
def allocate? (size : Nat) (base : Address := 0) (bigEndian : Bool := false) :
    Option LinearMemory :=
  if size ≤ maxSize then some (zeros size base bigEndian) else none

/-- The index of the first of `length` mapped bytes at an address. -/
def offset (mem : LinearMemory) (addr : Address) (length : Nat) : Except BusError Nat :=
  if addr.toNat < mem.base.toNat then .error (.below addr mem.base)
  else if addr.toNat - mem.base.toNat + length ≤ mem.bytes.size then
    .ok (addr.toNat - mem.base.toNat)
  else .error (.outside addr length mem.bytes.size)

/-- The bytes of a value in memory order, or back. -/
def ordered (mem : LinearMemory) (bytes : List UInt8) : List UInt8 :=
  if mem.bigEndian then bytes.reverse else bytes

/-- Reads `length` bytes, least significant first. -/
def readBytes (mem : LinearMemory) (addr : Address) (length : Nat) :
    Except BusError (List UInt8) := do
  let off ← mem.offset addr length
  return mem.ordered (mem.bytes.extract off (off + length)).toList

/-- Replaces the bytes from an index on. -/
def patch (bytes : Array UInt8) (off : Nat) : List UInt8 → Array UInt8
  | [] => bytes
  | b :: bs => patch (bytes.setIfInBounds off b) (off + 1) bs

/-- The memory with an image from an index on. -/
def patched (mem : LinearMemory) (off : Nat) (image : List UInt8) : LinearMemory :=
  { mem with bytes := patch mem.bytes off image }

/-- Copies an image to an address. -/
def load (mem : LinearMemory) (addr : Address) (image : List UInt8) :
    Except BusError LinearMemory := do
  let off ← mem.offset addr image.length
  return mem.patched off image

/-- An access that reads. -/
def reading {α : Type} (read : LinearMemory → Except BusError α) :
    EStateM BusError LinearMemory α := fun mem =>
  match read mem with
  | .ok a => .ok a mem
  | .error e => .error e mem

/-- An access that copies an image to an address. It decides before it writes, so that the bytes
can be replaced in place. -/
def writing (addr : Address) (image : List UInt8) : EStateM BusError LinearMemory Unit := fun mem =>
  match mem.offset addr image.length with
  | .ok off => .ok () (mem.patched off image)
  | .error e => .error e mem

/-- An access that writes bytes, given least significant first. -/
def writeBytes (addr : Address) (bytes : List UInt8) : EStateM BusError LinearMemory Unit := do
  writing addr ((← get).ordered bytes)

instance : Bus LinearMemory where
  read8 addr := reading fun mem => return UInt8.ofNat (ofLeBytes (← mem.readBytes addr 1))
  read16 addr := reading fun mem => return UInt16.ofNat (ofLeBytes (← mem.readBytes addr 2))
  read32 addr := reading fun mem => return UInt32.ofNat (ofLeBytes (← mem.readBytes addr 4))
  write8 addr v := writeBytes addr [v]
  write16 addr v := writeBytes addr (leBytes 2 v.toNat)
  write32 addr v := writeBytes addr (leBytes 4 v.toNat)

def ofJson? (value : Json) : Option LinearMemory := do
  let [bytes, base, bigEndian] ← value.record? ["mem", "base", "big_endian"] | none
  return {
    bytes := (← (← (← bytes).arr?).mapM fun b => UInt8.ofNat <$> b.nat? (2 ^ 8)).toArray
    base := BitVec.ofNat 32 (← (← base).nat? (2 ^ 32))
    bigEndian := ← Json.withDefault false Json.bool? bigEndian }

def toJson (mem : LinearMemory) : Json :=
  .obj [("mem", .arr (mem.bytes.toList.map fun b => .int b.toNat)), ("base", .int mem.base.toNat),
    ("big_endian", .bool mem.bigEndian)]

end LinearMemory
end SuperH
