import SuperH.Json.Token

/-!
# Reading JSON

* `Json.parse?` reads a text that holds one value. Arrays and objects may be nested `maxDepth` deep,
  and every string stands for text.
* `Json.skim?` reads a text for the readers of records, which pass over what they do not know: the
  two conditions do not hold for what is passed over. A string that stands for no text is
  `Json.illegible`, which every reader refuses.

The parser takes one token after the other and keeps the arrays and objects that are open.
-/

namespace SuperH.Json

/-- A string that has been read. -/
def ofText : Option String → Json
  | some s => .str s
  | none => .illegible

/-- An object whose fields are given from the last to the first. -/
def ofFields (fields : List (Option String × Json)) : Json :=
  match fields.reverse.mapM fun (name, value) => name.map (·, value) with
  | some fields => .obj fields
  | none => .illegible

/-- An array or object that is open, with its parts from the last to the first. -/
inductive Frame where
  | arr (elems : List Json)
  /-- An object with the name of the field whose value is due. -/
  | obj (fields : List (Option String × Json)) (name : Option String)

/-- What the tokens so far amount to. -/
inductive Parse where
  | valueDue (outer : List Frame)
  /-- The first element of an array or its end is due. -/
  | firstValue (outer : List Frame)
  | nameDue (fields : List (Option String × Json)) (outer : List Frame)
  /-- The name of an object's first field or its end is due. -/
  | firstName (outer : List Frame)
  | colonDue (fields : List (Option String × Json)) (name : Option String) (outer : List Frame)
  | done (value : Json) (outer : List Frame)

namespace Parse

/-- The first token of a value. -/
def start (outer : List Frame) : Token → Option Parse
  | .scalar value => some (.done value outer)
  | .string text => some (.done (ofText text) outer)
  | .openArr => some (.firstValue outer)
  | .openObj => some (.firstName outer)
  | _ => none

/-- What one token does. -/
def step : Parse → Token → Option Parse
  | .firstValue outer, .closeArr => some (.done (.arr []) outer)
  | .firstValue outer, token => start (.arr [] :: outer) token
  | .valueDue outer, token => start outer token
  | .firstName outer, .closeObj => some (.done (.obj []) outer)
  | .firstName outer, .string name => some (.colonDue [] name outer)
  | .nameDue fields outer, .string name => some (.colonDue fields name outer)
  | .colonDue fields name outer, .colon => some (.valueDue (.obj fields name :: outer))
  | .done value (.arr elems :: outer), .comma => some (.valueDue (.arr (value :: elems) :: outer))
  | .done value (.arr elems :: outer), .closeArr =>
    some (.done (.arr (value :: elems).reverse) outer)
  | .done value (.obj fields name :: outer), .comma => some (.nameDue ((name, value) :: fields) outer)
  | .done value (.obj fields name :: outer), .closeObj =>
    some (.done (ofFields ((name, value) :: fields)) outer)
  | _, _ => none

/-- The value when nothing is open. -/
def finish? : Parse → Option Json
  | .done value [] => some value
  | _ => none

end Parse

/-- The value that tokens stand for. -/
def ofTokens? (tokens : List Token) : Option Json :=
  (tokens.foldlM Parse.step (.valueDue [])).bind Parse.finish?

/-! ## Texts -/

/-- How deep arrays and objects may be nested. -/
def maxDepth : Nat := 127

/-- How many arrays and objects are open after a token. -/
def Token.depthAfter (depth : Nat) : Token → Nat
  | .openArr | .openObj => depth + 1
  | .closeArr | .closeObj => depth - 1
  | _ => depth

/-- False of a string that stands for no text. -/
def Token.isLegible : Token → Bool
  | .string none => false
  | _ => true

/-- True when every string stands for text and, with `depth` open before the tokens, no more than
`maxDepth` arrays and objects are ever open. -/
def isPlain (depth : Nat) : List Token → Bool
  | [] => true
  | t :: ts => t.isLegible && t.depthAfter depth ≤ maxDepth && isPlain (t.depthAfter depth) ts

/-- The value that a text holds. -/
def parse? (text : String) : Option Json := do
  let tokens ← Token.scan? text
  if isPlain 0 tokens then ofTokens? tokens else none

/-- The value that a text holds, for readers that pass over what they do not know. -/
def skim? (text : String) : Option Json := do ofTokens? (← Token.scan? text)

end SuperH.Json
