import SuperH.Il.Text

/-!
# Values

A `Value` is a truth value or a bit-vector; the two are never equal, but a truth value can be read as
one bit (`toBits`). The operators of the intermediate language act on values through `apply`.
-/

namespace SuperH

/-- The two sorts of values. -/
inductive ValueKind where
  | bool | bits
  deriving DecidableEq, Repr

/-- The sort as messages show it. -/
def ValueKind.name : ValueKind → String
  | .bool => "bool"
  | .bits => "bitvector"

/-- A value of the intermediate language. -/
inductive Value where
  | bool (b : Bool)
  | bits (v : Bits)
  deriving DecidableEq

namespace Value

def kind : Value → ValueKind
  | .bool _ => .bool
  | .bits _ => .bits

/-- The value as a bit-vector; a truth value is one bit. -/
def toBits : Value → Bits
  | .bool b => .ofBool b
  | .bits v => v

def width : Value → Nat
  | .bool _ => 1
  | .bits v => v.width

/-- The value without its width. -/
def text : Value → String
  | .bool b => boolText b
  | .bits v => v.text

end Value

/-- The operation on truth values. -/
def LogicOp.apply : LogicOp → Bool → Bool → Bool
  | .and, x, y => x && y
  | .or, x, y => x || y
  | .xor, x, y => x != y

/-- The operation on bit-vectors of one width. -/
def ArithOp.apply : ArithOp → Bits → Bits → Except Fault Bits
  | .add, x, y => x.add y
  | .sub, x, y => x.sub y
  | .mul, x, y => x.mul y
  | .and, x, y => x.and y
  | .or, x, y => x.or y
  | .xor, x, y => x.xor y

/-- The shift by a number of bits. -/
def ShiftOp.apply : ShiftOp → Bits → Nat → Bits
  | .left, x, n => x.shl n
  | .right, x, n => x.lshr n
  | .rightArith, x, n => x.ashr n

/-- Whether the comparison holds of two values with the given unsigned and signed order. -/
def CmpOp.holds (unsigned signed : Ordering) : CmpOp → Bool
  | .eq => unsigned.isEq
  | .ult => unsigned.isLT
  | .ule => unsigned.isLE
  | .ugt => unsigned.isGT
  | .uge => unsigned.isGE
  | .slt => signed.isLT
  | .sle => signed.isLE
  | .sgt => signed.isGT
  | .sge => signed.isGE

end SuperH
