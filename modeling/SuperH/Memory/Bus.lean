import SuperH.Text.Hex

/-!
# The bus

`Bus σ` is what an interpreter needs of a memory system with state `σ`: reads and writes of one, two
and four bytes at a 32-bit address. Each may fail with a `BusError`, and a read may change the
state.
-/

namespace SuperH

/-- A bus address. -/
abbrev Address := BitVec 32

/-- An address as messages show it. -/
def addressText (addr : Address) : String := hexPadded 8 addr.toNat

/-- Why an access failed. -/
inductive BusError where
  /-- the address is below the lowest mapped one -/
  | below (addr base : Address)
  /-- the access leaves a memory of `size` bytes -/
  | outside (addr : Address) (length size : Nat)
  /-- a device's own reason -/
  | device (reason : String)
  deriving DecidableEq, Repr

def BusError.message : BusError → String
  | .below addr base => "address " ++ addressText addr ++ " below base " ++ addressText base
  | .outside addr length size =>
    toString length ++ "-byte access at " ++ addressText addr ++ " outside " ++ toString size
      ++ " bytes of memory"
  | .device reason => reason

/-- A memory system. -/
class Bus (σ : Type) where
  read8 : Address → EStateM BusError σ UInt8
  read16 : Address → EStateM BusError σ UInt16
  read32 : Address → EStateM BusError σ UInt32
  write8 : Address → UInt8 → EStateM BusError σ Unit
  write16 : Address → UInt16 → EStateM BusError σ Unit
  write32 : Address → UInt32 → EStateM BusError σ Unit

end SuperH
