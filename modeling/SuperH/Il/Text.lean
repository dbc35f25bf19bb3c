import SuperH.Il.Basic
import SuperH.Text.Hex

/-!
# The text of the intermediate language

Trees are written as symbolic expressions: an operator and its arguments in parentheses, with one
blank between two words. A constant is written with its width, so a text determines its tree as long
as names hold no blanks, parentheses or quotes.
-/

namespace SuperH

def boolText : Bool → String
  | true => "true"
  | false => "false"

def LogicOp.symbol : LogicOp → String
  | .and => "&&"
  | .or => "||"
  | .xor => "^^"

def CmpOp.symbol : CmpOp → String
  | .eq => "=="
  | .ult => "ult"
  | .ule => "ule"
  | .ugt => "ugt"
  | .uge => "uge"
  | .slt => "slt"
  | .sle => "sle"
  | .sgt => "sgt"
  | .sge => "sge"

def ArithOp.symbol : ArithOp → String
  | .add => "+"
  | .sub => "-"
  | .mul => "*"
  | .and => "&"
  | .or => "|"
  | .xor => "^"

def ShiftOp.symbol : ShiftOp → String
  | .left => "<<"
  | .right => ">>"
  | .rightArith => ">>>"

/-- The operator and its arguments, in parentheses. -/
def textForm (operator : String) (arguments : List String) : String :=
  "(" ++ operator ++ String.join (arguments.map (" " ++ ·)) ++ ")"

/-- The word that reads or writes a variable: the plain one is for global variables. -/
def Scope.word (plain : String) : Scope → String
  | .global => plain
  | .temp => plain ++ "l"

def Expr.text : Expr → String
  | .bool b => boolText b
  | .bits v => textForm "bv" [toString v.width, v.text]
  | .var v => textForm (v.scope.word "var") [v.name]
  | .ite c t e => textForm "ite" [c.text, t.text, e.text]
  | .not x => textForm "!" [x.text]
  | .logic op x y => textForm op.symbol [x.text, y.text]
  | .msb x => textForm "msb" [x.text]
  | .lsb x => textForm "lsb" [x.text]
  | .isZero x => textForm "is_zero" [x.text]
  | .cmp op x y => textForm op.symbol [x.text, y.text]
  | .arith op x y => textForm op.symbol [x.text, y.text]
  | .neg x => textForm "neg" [x.text]
  | .complement x => textForm "~" [x.text]
  | .shift op value amount => textForm op.symbol [value.text, amount.text]
  | .cast signed width value =>
    textForm (if signed then "signed" else "unsigned") [toString width, value.text]
  | .loadBits n addr => textForm "load" [toString n.toNat, addr.text]

mutual

def Effect.text : Effect → String
  | .nop => "nop"
  | .empty => "empty"
  | .set v value => textForm (v.scope.word "set") [v.name, value.text]
  | .store addr value => textForm "store" [addr.text, value.text]
  | .seq es => textForm "seq" (Effect.texts es)
  | .branch c t e => textForm "branch" [c.text, t.text, e.text]
  | .jmp target => textForm "jmp" [target.text]
  | .raise name => textForm "raise" ["\"" ++ name ++ "\""]

def Effect.texts : List Effect → List String
  | [] => []
  | e :: es => e.text :: Effect.texts es

end

def Lifted.text : Lifted → String
  | .effect e => e.text
  | .exception name => textForm "exception" ["\"" ++ name ++ "\""]

end SuperH
