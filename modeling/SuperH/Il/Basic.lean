import SuperH.Bits.Basic

/-!
# The intermediate language

What an instruction does is a tree of two sorts. An `Expr` produces a value and changes no
variable; an `Effect` changes variables, memory or the program counter. Lifting an instruction
yields a `Lifted`: an effect, or an exception to deliver in its place.

* `Expr.const`, `Expr.signedConst` : constants; `Expr.global`, `Expr.temp` : variables; one function
  for each operation, such as `Expr.add` and `Expr.nonZero`;
* `Effect.setGlobal`, `Effect.setTemp` : assignments; `Effect.sequence` : a sequence whose direct
  parts are not sequences themselves, unless they were nested twice.
-/

namespace SuperH

/-- How long a variable lives: until the machine ends, or for one instruction. -/
inductive Scope where
  | global | temp
  deriving DecidableEq, Repr

/-- The scope as messages show it. -/
def Scope.name : Scope → String
  | .global => "global"
  | .temp => "local"

structure Var where
  scope : Scope
  name : String
  deriving DecidableEq, Repr

/-- Operations on two truth values. -/
inductive LogicOp where
  | and | or | xor
  deriving DecidableEq, Repr

/-- Comparisons; all but equality are for bit-vectors only. -/
inductive CmpOp where
  | eq | ult | ule | ugt | uge | slt | sle | sgt | sge
  deriving DecidableEq, Repr

/-- Operations on two bit-vectors of one width. -/
inductive ArithOp where
  | add | sub | mul | and | or | xor
  deriving DecidableEq, Repr

/-- Shifts: towards the most significant bit, or towards the least with zero or sign fill. -/
inductive ShiftOp where
  | left | right | rightArith
  deriving DecidableEq, Repr

inductive Expr where
  | bool (b : Bool)
  | bits (v : Bits)
  | var (v : Var)
  /-- the second or the third expression, as the first says -/
  | ite (cond thenE elseE : Expr)
  | not (x : Expr)
  | logic (op : LogicOp) (x y : Expr)
  /-- the most significant bit, as a truth value -/
  | msb (x : Expr)
  /-- the least significant bit, as a truth value -/
  | lsb (x : Expr)
  /-- whether no bit is set -/
  | isZero (x : Expr)
  | cmp (op : CmpOp) (x y : Expr)
  | arith (op : ArithOp) (x y : Expr)
  /-- negation modulo the width -/
  | neg (x : Expr)
  /-- every bit flipped -/
  | complement (x : Expr)
  | shift (op : ShiftOp) (value amount : Expr)
  /-- the value cut or extended to a width -/
  | cast (signed : Bool) (width : Nat) (value : Expr)
  /-- so many bits of memory at an address -/
  | loadBits (bits : BitVec 32) (addr : Expr)
  deriving DecidableEq

/-- A change of state. -/
inductive Effect where
  | nop
  /-- nothing, since the instruction is not modelled -/
  | empty
  | set (var : Var) (value : Expr)
  | store (addr value : Expr)
  /-- one after the other -/
  | seq (parts : List Effect)
  | branch (cond : Expr) (thenE elseE : Effect)
  | jmp (target : Expr)
  /-- records the exception of that name and goes on -/
  | raise (name : String)

/-- What lifting an instruction yields. -/
inductive Lifted where
  | effect (e : Effect)
  | exception (name : String)

namespace Expr

-- the usual widths, by name so that all trees cite the same proofs
theorem byte_pos : 0 < 8 := by decide
theorem word_pos : 0 < 32 := by decide
theorem double_pos : 0 < 64 := by decide

/-- The low `width` bits of a number. -/
def const (width v : Nat) (h : 0 < width := by
    first | exact Expr.byte_pos | exact Expr.word_pos | exact Expr.double_pos | decide) : Expr :=
  .bits (.ofNat width v h)

/-- The low `width` bits of an integer. -/
def signedConst (width : Nat) (v : Int) (h : 0 < width := by
    first | exact Expr.byte_pos | exact Expr.word_pos | exact Expr.double_pos | decide) : Expr :=
  .bits (.ofInt width v h)

/-- So many bits of memory at an address, by the low 32 bits of their number. -/
def load (bits : Nat) (addr : Expr) : Expr := .loadBits (.ofNat 32 bits) addr

/-- A variable of the machine. -/
def global (name : String) : Expr := .var ⟨.global, name⟩

/-- A variable of the instruction. -/
def temp (name : String) : Expr := .var ⟨.temp, name⟩

def and (x y : Expr) : Expr := .logic .and x y
def or (x y : Expr) : Expr := .logic .or x y
def xor (x y : Expr) : Expr := .logic .xor x y

def nonZero (x : Expr) : Expr := .not (.isZero x)

def eq (x y : Expr) : Expr := .cmp .eq x y
def ult (x y : Expr) : Expr := .cmp .ult x y
def ugt (x y : Expr) : Expr := .cmp .ugt x y
def uge (x y : Expr) : Expr := .cmp .uge x y
def sgt (x y : Expr) : Expr := .cmp .sgt x y
def sge (x y : Expr) : Expr := .cmp .sge x y

def add (x y : Expr) : Expr := .arith .add x y
def sub (x y : Expr) : Expr := .arith .sub x y
def mul (x y : Expr) : Expr := .arith .mul x y
def bitAnd (x y : Expr) : Expr := .arith .and x y
def bitOr (x y : Expr) : Expr := .arith .or x y
def bitXor (x y : Expr) : Expr := .arith .xor x y

def shl (value amount : Expr) : Expr := .shift .left value amount
def shr (value amount : Expr) : Expr := .shift .right value amount
def sar (value amount : Expr) : Expr := .shift .rightArith value amount

/-- The value cut or extended with zeros. -/
def unsigned (width : Nat) (value : Expr) : Expr := .cast false width value

/-- The value cut or extended with its sign. -/
def signed (width : Nat) (value : Expr) : Expr := .cast true width value

end Expr

namespace Effect

def setGlobal (name : String) (value : Expr) : Effect := .set ⟨.global, name⟩ value

def setTemp (name : String) (value : Expr) : Effect := .set ⟨.temp, name⟩ value

/-- The effects that an effect runs one after the other. -/
def parts : Effect → List Effect
  | .seq es => es
  | e => [e]

/-- The sequence of all parts of the given effects. -/
def sequence (es : List Effect) : Effect := .seq (es.flatMap parts)

/-- True of the effect of an instruction that is not modelled. -/
def isEmpty : Effect → Bool
  | .empty => true
  | _ => false

end Effect
end SuperH
