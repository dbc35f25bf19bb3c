import SuperH.Bits.Power

/-!
# Register profiles

A profile lists registers as bit ranges. Ranges of one class share an arena of bits, so two of them
may overlap and then name the same bits; ranges of different classes never do.

* `Register.overlaps` : two registers of a class have a bit in common;
* `Profile.get?`, `pcRegister?`, `ofClass` : the registers of a profile;
* `Profile.validate` : every register has bits, fits its arena and has a name of its own, and the
  program counter is one of them.
-/

namespace SuperH

/-- A class of registers with an arena of its own. -/
inductive RegClass where
  | gpr | drx | fpu | mmx | xmm | ymm | flg | seg | sys | sec | vc | vcc | ctr
  deriving DecidableEq, Repr, Inhabited

namespace RegClass

/-- The classes in their fixed order. -/
def all : List RegClass :=
  [.gpr, .drx, .fpu, .mmx, .xmm, .ymm, .flg, .seg, .sys, .sec, .vc, .vcc, .ctr]

abbrev count : Nat := 13

/-- The place of a class in the fixed order. -/
def index : RegClass → Fin count
  | .gpr => 0
  | .drx => 1
  | .fpu => 2
  | .mmx => 3
  | .xmm => 4
  | .ymm => 5
  | .flg => 6
  | .seg => 7
  | .sys => 8
  | .sec => 9
  | .vc => 10
  | .vcc => 11
  | .ctr => 12

theorem index_inj {c d : RegClass} : c.index = d.index ↔ c = d := by
  cases c <;> cases d <;> decide

/-- The word that stands for the class in a profile. -/
def tag : RegClass → String
  | .gpr => "gpr"
  | .drx => "drx"
  | .fpu => "fpu"
  | .mmx => "mmx"
  | .xmm => "xmm"
  | .ymm => "ymm"
  | .flg => "flg"
  | .seg => "seg"
  | .sys => "sys"
  | .sec => "sec"
  | .vc => "vc"
  | .vcc => "vcc"
  | .ctr => "ctr"

def ofTag? (tag : String) : Option RegClass := all.find? (·.tag == tag)

end RegClass

/-- A named bit range of its class's arena. -/
structure Register where
  name : String
  /-- position of the lowest bit -/
  offset : Nat
  size : Nat
  cls : RegClass := .gpr
  deriving DecidableEq, Repr, Inhabited

namespace Register

/-- The position after the highest bit; no position is past `2^32 - 1`. -/
def limit (r : Register) : Nat := min (r.offset + r.size) (2 ^ 32 - 1)

/-- The registers have a bit in common. -/
def overlaps (r s : Register) : Bool :=
  r.cls == s.cls && r.offset < s.limit && s.offset < r.limit

end Register

/-- Why a profile is refused. -/
inductive ProfileError where
  /-- the text is not the record of a profile -/
  | malformed
  | zeroWidth (name : String)
  | overlong (name : String)
  | duplicateName (name : String)
  | unknownPc (name : String)
  deriving DecidableEq, Repr

def ProfileError.message : ProfileError → String
  | .malformed => "invalid register profile"
  | .zeroWidth name => "register `" ++ name ++ "` has zero width"
  | .overlong name => "register `" ++ name ++ "` does not fit the register arena"
  | .duplicateName name => "register `" ++ name ++ "` is defined twice"
  | .unknownPc name => "program counter alias `" ++ name ++ "` names no register"

/-- A register layout and the name of its program counter. -/
structure Profile where
  registers : List Register
  pc : Option String := none
  deriving DecidableEq, Repr, Inhabited

namespace Profile

/-- The highest position that a register of a valid profile may reach. -/
def maxLimit : Nat := 2 ^ 20

/-- The first register of that name. -/
def get? (profile : Profile) (name : String) : Option Register :=
  profile.registers.find? (·.name == name)

/-- The program counter's register. -/
def pcRegister? (profile : Profile) : Option Register := profile.pc.bind profile.get?

/-- The registers of a class, in profile order. -/
def ofClass (profile : Profile) (cls : RegClass) : List Register :=
  profile.registers.filter (·.cls == cls)

/-- Checks registers in order; `seen` are the names before them. -/
def checkRegisters (seen : List String) : List Register → Except ProfileError Unit
  | [] => .ok ()
  | r :: rs =>
    if r.size = 0 then .error (.zeroWidth r.name)
    else if maxLimit < r.offset + r.size then .error (.overlong r.name)
    else if r.name ∈ seen then .error (.duplicateName r.name)
    else checkRegisters (r.name :: seen) rs

/-- Checks that the program counter names a register. -/
def checkPc (profile : Profile) : Except ProfileError Unit :=
  match profile.pc with
  | none => .ok ()
  | some pc =>
    if pc ∈ profile.registers.map (·.name) then .ok () else .error (.unknownPc pc)

/-- Reports the first defect of a profile. -/
def validate (profile : Profile) : Except ProfileError Unit := do
  checkRegisters [] profile.registers
  profile.checkPc

/-- The profile, if it is valid. -/
def checked (profile : Profile) : Except ProfileError Profile := do
  profile.validate
  return profile

end Profile
end SuperH
