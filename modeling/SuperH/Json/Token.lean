import SuperH.Json.Basic

/-!
# The tokens of a JSON text

`Token.scan?` cuts a text into tokens. It reads one character after the other and keeps the lexeme
that it is in the midst of, so its state is all that it knows of the characters before.

* `Number.ofLiteral?` : the number that a literal stands for;
* `stringOfUnits?` : the string that code units stand for, where a character past the first plane is
  a pair of surrogates;
* `Token.Scan.step` : what one character does.
-/

namespace SuperH.Json

/-- A token. A string whose escapes stand for no text has none. -/
inductive Token where
  | openArr
  | closeArr
  | openObj
  | closeObj
  | comma
  | colon
  | scalar (value : Json)
  | string (text : Option String)
  deriving Inhabited

/-- What may stand between two tokens. -/
def isBlank (c : Char) : Bool := c == ' ' || c == '\t' || c == '\n' || c == '\r'

/-! ## Numbers -/

def digitValue (c : Char) : Nat := c.toNat - '0'.toNat

/-- The number that decimal digits stand for. -/
def decimal (digits : List Char) : Nat := digits.foldl (fun n c => 10 * n + digitValue c) 0

namespace Number

/-- The characters that a literal is written with. -/
def isPart (c : Char) : Bool :=
  c.isDigit || c == '+' || c == '-' || c == '.' || c == 'e' || c == 'E'

/-- A sign or none, of those that are allowed, and what follows. -/
def sign (allowed : List Char) : List Char → List Char × List Char
  | [] => ([], [])
  | c :: cs => if allowed.contains c then ([c], cs) else ([], c :: cs)

/-- Drops a fraction, which is nothing or a point and at least one digit. -/
def dropFraction? : List Char → Option (List Char)
  | '.' :: cs =>
    match cs.span Char.isDigit with
    | ([], _) => none
    | (_, rest) => some rest
  | cs => some cs

/-- Nothing or an exponent: a letter, a sign or none, and at least one digit. -/
def isExponent : List Char → Bool
  | [] => true
  | e :: cs =>
    let digits := (sign ['+', '-'] cs).2
    (e == 'e' || e == 'E') && !digits.isEmpty && digits.all Char.isDigit

/-- The number of a literal. Its integral part has no leading zero. -/
def ofLiteral? (literal : List Char) : Option Json := do
  let (minus, cs) := sign ['-'] literal
  let (digits, tail) := cs.span Char.isDigit
  if digits.isEmpty || (digits.length > 1 && digits.head? == some '0') then none
  if !isExponent (← dropFraction? tail) then none
  let n : Int := if minus.isEmpty then decimal digits else -(decimal digits : Int)
  let minusZero := !minus.isEmpty && n == 0
  if tail.isEmpty && intLiteral n && !minusZero then
    some (.int n)
  else
    some (.real (String.ofList literal))

end Number

/-! ## Strings -/

def hexValue? (c : Char) : Option Nat :=
  if c.isDigit then some (digitValue c)
  else if 'a' ≤ c ∧ c ≤ 'f' then some (c.toNat - 'a'.toNat + 10)
  else if 'A' ≤ c ∧ c ≤ 'F' then some (c.toNat - 'A'.toNat + 10)
  else none

def isHighSurrogate (n : Nat) : Bool := 0xD800 ≤ n && n < 0xDC00

def isLowSurrogate (n : Nat) : Bool := 0xDC00 ≤ n && n < 0xE000

/-- The code point of a pair of surrogates. -/
def pairValue (high low : Nat) : Nat := 0x10000 + (high - 0xD800) * 0x400 + (low - 0xDC00)

/-- The characters of code points and surrogates, which are given from the last to the first, in
front of those after them. A surrogate outside of a pair stands for nothing. -/
def charsOfUnits? (after : List Char) : List Nat → Option (List Char)
  | [] => some after
  | [unit] =>
    if isHighSurrogate unit || isLowSurrogate unit then none
    else some (Char.ofNat unit :: after)
  | unit :: before :: units =>
    if isLowSurrogate unit && isHighSurrogate before then
      charsOfUnits? (Char.ofNat (pairValue before unit) :: after) units
    else if isHighSurrogate unit || isLowSurrogate unit then none
    else charsOfUnits? (Char.ofNat unit :: after) (before :: units)

/-- The string of code points and surrogates, which are given from the last to the first. -/
def stringOfUnits? (units : List Nat) : Option String :=
  (charsOfUnits? [] units).map String.ofList

/-- The character of an escape that has one letter. -/
def shortEscape? (c : Char) : Option Char :=
  if c == '"' || c == '\\' || c == '/' then some c
  else [('b', '\x08'), ('f', '\x0c'), ('n', '\n'), ('r', '\r'), ('t', '\t')].lookup c

/-! ## Scanning -/

/-- What has been read of the present lexeme, the latest first. -/
inductive Lexeme where
  /-- Between two tokens. -/
  | blank
  /-- In a word, of which the rest has to follow. -/
  | word (rest : List Char) (value : Json)
  | number (read : List Char)
  | string (units : List Nat)
  /-- In a string after a backslash. -/
  | escape (units : List Nat)
  /-- In the digits of an escape, of which some are missing. -/
  | code (units : List Nat) (missing value : Nat)
  deriving Inhabited

namespace Token

/-- The tokens so far, the latest first, and the present lexeme. -/
structure Scan where
  tokens : List Token
  lexeme : Lexeme

namespace Scan

/-- A complete token. -/
def push (tokens : List Token) (token : Token) : Scan := ⟨token :: tokens, .blank⟩

/-- A character between two tokens. -/
def start (tokens : List Token) (c : Char) : Option Scan :=
  if isBlank c then some ⟨tokens, .blank⟩
  else if Char.isDigit c || c == '-' then some ⟨tokens, .number [c]⟩
  else match c with
    | '[' => some (push tokens .openArr)
    | ']' => some (push tokens .closeArr)
    | '\x7b' => some (push tokens .openObj)
    | '\x7d' => some (push tokens .closeObj)
    | ',' => some (push tokens .comma)
    | ':' => some (push tokens .colon)
    | '"' => some ⟨tokens, .string []⟩
    | 'n' => some ⟨tokens, .word "ull".toList .null⟩
    | 't' => some ⟨tokens, .word "rue".toList (.bool true)⟩
    | 'f' => some ⟨tokens, .word "alse".toList (.bool false)⟩
    | _ => none

/-- The tokens up to the end of a number. -/
def endNumber? (tokens : List Token) (read : List Char) : Option (List Token) :=
  (Number.ofLiteral? read.reverse).map fun value => .scalar value :: tokens

/-- A character in a string. A control character has to be escaped. -/
def inString (tokens : List Token) (units : List Nat) (c : Char) : Option Scan :=
  if c == '"' then some (push tokens (.string (stringOfUnits? units)))
  else if c == '\\' then some ⟨tokens, .escape units⟩
  else if c.toNat < 0x20 then none
  else some ⟨tokens, .string (c.toNat :: units)⟩

/-- What one character does. -/
def step (scan : Scan) (c : Char) : Option Scan :=
  let tokens := scan.tokens
  match scan.lexeme with
  | .blank => start tokens c
  | .word [] _ => none
  | .word [last] value => if c == last then some (push tokens (.scalar value)) else none
  | .word (next :: rest) value => if c == next then some ⟨tokens, .word rest value⟩ else none
  | .number read =>
    if Number.isPart c then some ⟨tokens, .number (c :: read)⟩
    else (endNumber? tokens read).bind fun tokens => start tokens c
  | .string units => inString tokens units c
  | .escape units =>
    if c == 'u' then some ⟨tokens, .code units 4 0⟩
    else (shortEscape? c).map fun c => ⟨tokens, .string (c.toNat :: units)⟩
  | .code units missing value =>
    (hexValue? c).map fun digit =>
      let value := 16 * value + digit
      if missing ≤ 1 then ⟨tokens, .string (value :: units)⟩
      else ⟨tokens, .code units (missing - 1) value⟩

/-- The tokens of a text that is read whole. -/
def finish? (scan : Scan) : Option (List Token) :=
  match scan.lexeme with
  | .blank => some scan.tokens.reverse
  | .number read => (endNumber? scan.tokens read).map List.reverse
  | _ => none

end Scan

/-- The tokens of a text. -/
def scan? (text : String) : Option (List Token) :=
  (text.toList.foldlM Scan.step ⟨[], .blank⟩).bind Scan.finish?

end Token
end SuperH.Json
