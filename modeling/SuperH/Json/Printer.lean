import SuperH.Json.Basic
import SuperH.Text.Hex

/-!
# Writing JSON

`Json.compact` writes a value without blanks. `Json.pretty` writes one element or field a line,
indented by two blanks a level; an empty array or object stays on its line. What is illegible is
written as `null`.
-/

namespace SuperH.Json

/-- A character inside of a string: quotes, backslashes and control characters are escaped. -/
def escaped (c : Char) : List Char :=
  if c == '"' then ['\\', '"']
  else if c == '\\' then ['\\', '\\']
  else if c == '\x08' then ['\\', 'b']
  else if c == '\x0c' then ['\\', 'f']
  else if c == '\n' then ['\\', 'n']
  else if c == '\r' then ['\\', 'r']
  else if c == '\t' then ['\\', 't']
  else if c.toNat < 0x20 then '\\' :: 'u' :: hexDigitsPadded 4 c.toNat
  else [c]

def quoted (s : String) : String := String.ofList ('"' :: s.toList.flatMap escaped ++ ['"'])

mutual

/-- A text and after it the value on one line without blanks. -/
def compactAfter (text : String) : Json → String
  | .null | .illegible => text ++ "null"
  | .bool b => text ++ toString b
  | .int n => text ++ toString n
  | .real literal => text ++ literal
  | .str s => text ++ quoted s
  | .arr elems => compactElems (text ++ "[") "" elems ++ "]"
  | .obj fields => compactFields (text ++ "\x7b") "" fields ++ "\x7d"

def compactElems (text separator : String) : List Json → String
  | [] => text
  | e :: es => compactElems (compactAfter (text ++ separator) e) "," es

def compactFields (text separator : String) : List (String × Json) → String
  | [] => text
  | (name, v) :: fs =>
    compactFields (compactAfter (text ++ separator ++ quoted name ++ ":") v) "," fs

end

/-- The value on one line without blanks. -/
def compact (value : Json) : String := compactAfter "" value

/-- A line break and the indentation of a level. -/
def newline (level : Nat) : String := String.ofList ('\n' :: List.replicate (2 * level) ' ')

mutual

/-- A text and after it the value on lines of its own, at a level of indentation. -/
def prettyAfter (text : String) (level : Nat) : Json → String
  | .arr (e :: es) =>
    prettyElems (prettyAfter (text ++ "[" ++ newline (level + 1)) (level + 1) e) (level + 1) es
      ++ newline level ++ "]"
  | .obj ((name, v) :: fs) =>
    prettyFields
        (prettyAfter (text ++ "\x7b" ++ newline (level + 1) ++ quoted name ++ ": ") (level + 1) v)
        (level + 1) fs
      ++ newline level ++ "\x7d"
  | .arr [] => text ++ "[]"
  | .obj [] => text ++ "\x7b\x7d"
  | .null | .illegible => text ++ "null"
  | .bool b => text ++ toString b
  | .int n => text ++ toString n
  | .real literal => text ++ literal
  | .str s => text ++ quoted s

def prettyElems (text : String) (level : Nat) : List Json → String
  | [] => text
  | e :: es => prettyElems (prettyAfter (text ++ "," ++ newline level) level e) level es

def prettyFields (text : String) (level : Nat) : List (String × Json) → String
  | [] => text
  | (name, v) :: fs =>
    prettyFields (prettyAfter (text ++ "," ++ newline level ++ quoted name ++ ": ") level v) level fs

end

/-- The value on lines of its own. -/
def pretty (value : Json) : String := prettyAfter "" 0 value

end SuperH.Json
