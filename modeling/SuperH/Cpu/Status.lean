import SuperH.Il.Basic

/-!
# The status register

The interpreter holds each flag of SR in a variable of its own. The interrupt mask of four bits is
one flag, which is set when any of them is.

* `Flag` : the flags; `var` names a flag's variable and `mask` the bits of SR that set it;
* `FlagSet.pack`, `FlagSet.unpack` : SR of a set of flags, and the flags that a value of SR sets;
* `statusExpr`, `setStatus` : the same in the intermediate language.
-/

namespace SuperH

/-- A flag of the status register. -/
inductive Flag where
  /-- condition, carry or overflow -/
  | t
  /-- saturation of multiply and accumulate -/
  | s
  /-- some interrupt is masked -/
  | i
  /-- state of a division -/
  | q
  /-- sign of a divisor -/
  | m
  /-- the floating-point unit is disabled -/
  | fd
  /-- exceptions are blocked -/
  | bl
  /-- register bank select -/
  | rb
  /-- privileged mode -/
  | md
  deriving DecidableEq, Repr

namespace Flag

/-- The flags from the lowest bit up. -/
def all : List Flag := [.t, .s, .i, .q, .m, .fd, .bl, .rb, .md]

/-- The position of the flag's lowest bit in SR. -/
def bit : Flag → Nat
  | .t => 0
  | .s => 1
  | .i => 4
  | .q => 8
  | .m => 9
  | .fd => 15
  | .bl => 28
  | .rb => 29
  | .md => 30

/-- The bits of SR that set the flag. -/
def mask : Flag → Nat
  | .i => 0xf0
  | flag => 2 ^ flag.bit

/-- The variable that holds the flag. -/
def var : Flag → String
  | .t => "sr_t"
  | .s => "sr_s"
  | .i => "sr_i"
  | .q => "sr_q"
  | .m => "sr_m"
  | .fd => "sr_f"
  | .bl => "sr_b"
  | .rb => "sr_r"
  | .md => "sr_d"

/-- The flag's name in a list of flags. -/
def title : Flag → String
  | .t => "T"
  | .s => "S"
  | .i => "I"
  | .q => "Q"
  | .m => "M"
  | .fd => "FD"
  | .bl => "BL"
  | .rb => "RB"
  | .md => "MD"

/-- The flag as a truth value. -/
def expr (flag : Flag) : Expr := .global flag.var

/-- The flag as a word that is 0 or 1. -/
def word (flag : Flag) : Expr := .ite flag.expr (.const 32 1) (.const 32 0)

/-- Sets the flag to a truth value. -/
def assign (flag : Flag) (value : Expr) : Effect := .setGlobal flag.var value

end Flag

abbrev FlagSet := Flag → Bool

namespace FlagSet

def toList (flags : FlagSet) : List Flag := Flag.all.filter flags

/-- The value of SR in which exactly these flags are set, each by its lowest bit. -/
def pack (flags : FlagSet) : Bits :=
  .ofNat 32 (Flag.all.foldl (fun sr flag => sr ||| (flags flag).toNat <<< flag.bit) 0)

/-- The flags that the low 32 bits of a value set. -/
def unpack (sr : Bits) : FlagSet := fun flag => sr.toNat &&& flag.mask != 0

def privileged (flags : FlagSet) : Bool := flags .md

/-- The members' names with a bar between two. -/
def text (flags : FlagSet) : String := " | ".intercalate (flags.toList.map Flag.title)

end FlagSet

/-- The value of SR, put together from the flags' variables. -/
def statusExpr : Expr :=
  Flag.all.foldl (fun sr flag => sr.bitOr (flag.word.shl (.const 32 flag.bit))) (.const 32 0)

/-- Splits a value of SR into the flags' variables. The value is computed once. -/
def setStatus (value : Expr) : Effect :=
  .sequence <| .setTemp "sr_val" value :: Flag.all.map fun flag =>
    flag.assign ((Expr.temp "sr_val").bitAnd (.const 32 flag.mask)).nonZero

end SuperH
