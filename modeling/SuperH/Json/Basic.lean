import SuperH.Bits.Power

/-!
# JSON values

`Json` keeps what a decoder of records needs to see: the fields of an object in their order with
repeated names, and integers apart from other numbers. The readers below answer `none` for a value
of another kind or out of range.
-/

namespace SuperH

/-- A JSON value. A number literal is an `int` when it has neither fraction nor exponent and lies
from `-2^63` to `2^64 - 1`; any other number (also `-0`) is kept as its text. What is `illegible` is a
string that stands for no text, or an object with such a name: no reader accepts it. -/
inductive Json where
  | null
  | bool (b : Bool)
  | int (n : Int)
  | real (literal : String)
  | str (s : String)
  | arr (elems : List Json)
  | obj (fields : List (String × Json))
  | illegible
  deriving Inhabited

namespace Json

/-- The integers that a number literal can be. -/
def intLiteral (n : Int) : Bool := -2 ^ 63 ≤ n && n < 2 ^ 64

def bool? : Json → Option Bool
  | .bool b => some b
  | _ => none

/-- A natural number below `bound`. -/
def nat? (bound : Nat) : Json → Option Nat
  | .int n => if 0 ≤ n ∧ n < bound then some n.toNat else none
  | _ => none

/-- An integer that fits a signed word of `bits` bits. -/
def int? (bits : Nat) : Json → Option Int
  | .int n => if -2 ^ (bits - 1) ≤ n ∧ n < 2 ^ (bits - 1) then some n else none
  | _ => none

def str? : Json → Option String
  | .str s => some s
  | _ => none

def arr? : Json → Option (List Json)
  | .arr elems => some elems
  | _ => none

def isArr (value : Json) : Bool := value.arr?.isSome

/-- The value of the first field of that name. -/
def field? (name : String) : Json → Option Json
  | .obj fields => fields.lookup name
  | _ => none

/-! ## Records and variants -/

/-- The values of a record's fields, in the order of `names`. A record is an object in which no
known field is repeated and unknown fields are ignored, or an array of the fields' values in order
of which the last may be left out. -/
def record? (names : List String) : Json → Option (List (Option Json))
  | .obj fields =>
    if names.all fun name => (fields.filter (·.1 == name)).length ≤ 1 then
      some (names.map fun name => fields.lookup name)
    else none
  | .arr elems =>
    if elems.length ≤ names.length then
      some ((List.range names.length).map fun i => elems[i]?)
    else none
  | _ => none

/-- A record's field that may be left out. -/
def withDefault {α : Type} (default : α) (read : Json → Option α) : Option Json → Option α
  | none => some default
  | some value => read value

/-- A value that may be `null`. -/
def nullable {α : Type} (read : Json → Option α) : Json → Option (Option α)
  | .null => some none
  | value => (read value).map some

/-- The tag and the content of a variant: a bare string has no content, and otherwise the variant is
an object of one field. -/
def variant? : Json → Option (String × Option Json)
  | .str tag => some (tag, none)
  | .obj [(tag, content)] => some (tag, some content)
  | _ => none

/-- The tag of a variant that has no content; `null` counts as none. -/
def tag? (value : Json) : Option String :=
  match value.variant? with
  | some (tag, none) | some (tag, some .null) => some tag
  | _ => none

/-- A string, or `null` where there is none. -/
def ofString? : Option String → Json
  | some s => .str s
  | none => .null

end Json
end SuperH
