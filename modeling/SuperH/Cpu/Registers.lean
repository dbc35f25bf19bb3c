import SuperH.Cpu.Status
import SuperH.Register.Profile
import SuperH.Vm.Basic

/-!
# The registers of the SH-4

Operands name registers by an index: R0 to R15, the control registers, and the eight registers of
the bank that is not selected. R0 to R7 exist twice.

* `regName?` : the variable of a register that exists once;
* `bankName?` : the variable of R0 to R7 in a bank;
* `profile`, `vmConfig` : the register layout, in which each flag is a one-bit view of SR, and the
  interpreter's configuration.
-/

namespace SuperH

namespace Cpu

/-! ## Indices -/

def r0 : Nat := 0
def sr : Nat := 16
def gbr : Nat := 17
def ssr : Nat := 18
def spc : Nat := 19
def sgr : Nat := 20
def dbr : Nat := 21
def vbr : Nat := 22
def mach : Nat := 23
def macl : Nat := 24
def pr : Nat := 25
def r0Bank : Nat := 26

/-- The number of register indices. -/
def regCount : Nat := 34

/-- The number of registers that exist twice. -/
def bankedCount : Nat := 8

def isValid (index : Nat) : Bool := index < regCount

def isBanked (index : Nat) : Bool := index < bankedCount

/-! ## Variables -/

def generalNames : List String :=
  ["r0", "r1", "r2", "r3", "r4", "r5", "r6", "r7", "r8", "r9", "r10", "r11", "r12", "r13", "r14",
    "r15"]

def controlNames : List String :=
  ["sr", "gbr", "ssr", "spc", "sgr", "dbr", "vbr", "mach", "macl", "pr"]

def bankNames : List String := ["r0b", "r1b", "r2b", "r3b", "r4b", "r5b", "r6b", "r7b"]

/-- The variable of a general or control register. -/
def regName? (index : Nat) : Option String := (generalNames ++ controlNames)[index]?

/-- The variable of R0 to R7 in bank 0 or 1. -/
def bankName? (index bank : Nat) : Option String :=
  if isBanked index then
    match bank with
    | 0 => generalNames[index]?
    | 1 => bankNames[index]?
    | _ => none
  else none

/-! ## Layout -/

/-- The registers of 32 bits, each after the one before. -/
def words : List Register :=
  (generalNames ++ controlNames ++ ["pc"] ++ bankNames).mapIdx fun i name => ⟨name, 32 * i, 32, .gpr⟩

/-- The flags as views of SR. -/
def flagViews : List Register := Flag.all.map fun flag => ⟨flag.var, 32 * sr + flag.bit, 1, .gpr⟩

def profile : Profile := ⟨words ++ flagViews, some "pc"⟩

/-- The SH-4's interpreter has 32-bit addresses. -/
def vmConfig (bigEndian : Bool) : VmConfig := ⟨32, bigEndian, 32⟩

end Cpu

/-- An interpreter is privileged when its flag of privileged mode is set; without one it is not. -/
def Vm.privileged (vm : Vm) : Bool :=
  match vm.get? Flag.md.var with
  | some (.bool b) => b
  | some (.bits v) => !v.isZero
  | none => false

end SuperH
