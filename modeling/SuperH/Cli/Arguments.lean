import SuperH.Bits.Power

/-!
# Command-line arguments

`Arguments.scan` sorts words into switches, options with a value, and positional words, by a
`Grammar` of long names. It refuses an unknown or repeated name, a switch with a value, an option
without one, and more positional words than the grammar has.

* an option's value stands after an equals sign or is the next word, which then must not look like
  an option; a single hyphen is an ordinary word;
* after `--` every word is positional.
-/

namespace SuperH.Cli

/-- The long names that a command knows. -/
structure Grammar where
  switches : List String := []
  options : List String := []
  /-- how many positional words there may be -/
  positionals : Nat := 0

/-- The words of a command, sorted. -/
structure Arguments where
  switches : List String := []
  options : List (String × String) := []
  positionals : List String := []

/-- A word that starts with a hyphen and goes on. -/
def looksLikeOption (word : String) : Bool :=
  match word.toList with
  | '-' :: _ :: _ => true
  | _ => false

/-- The name and the attached value of a long option. -/
def longOption? (word : String) : Option (String × Option String) :=
  match word.toList with
  | '-' :: '-' :: cs =>
    let (name, rest) := cs.span (· != '=')
    match rest with
    | [] => some (String.ofList name, none)
    | _ :: value => some (String.ofList name, some (String.ofList value))
  | _ => none

namespace Arguments

def has (args : Arguments) (name : String) : Bool := args.switches.contains name

def value? (args : Arguments) (name : String) : Option String := args.options.lookup name

def addPositional (grammar : Grammar) (word : String) (args : Arguments) : Option Arguments :=
  if args.positionals.length < grammar.positionals then
    some { args with positionals := args.positionals ++ [word] }
  else none

def addSwitch (name : String) (args : Arguments) : Option Arguments :=
  if args.has name then none else some { args with switches := name :: args.switches }

def addOption (name value : String) (args : Arguments) : Option Arguments :=
  if (args.value? name).isSome then none
  else some { args with options := (name, value) :: args.options }

def addPositionals (grammar : Grammar) (args : Arguments) (words : List String) :
    Option Arguments :=
  words.foldlM (fun args word => args.addPositional grammar word) args

/-- Sorts words, after the ones that are sorted already. `pending` is the name of an option that
waits for its value. -/
def scanFrom (grammar : Grammar) : Option String → Arguments → List String → Option Arguments
  | none, args, [] => some args
  | some _, _, [] => none
  | some name, args, word :: words =>
    if looksLikeOption word then none
    else do scanFrom grammar none (← args.addOption name word) words
  | none, args, word :: words =>
    if word == "--" then args.addPositionals grammar words
    else if looksLikeOption word then
      match longOption? word with
      | some (name, none) =>
        if grammar.switches.contains name then do
          scanFrom grammar none (← args.addSwitch name) words
        else if grammar.options.contains name then scanFrom grammar (some name) args words
        else none
      | some (name, some value) =>
        if grammar.options.contains name then do
          scanFrom grammar none (← args.addOption name value) words
        else none
      | none => none
    else do scanFrom grammar none (← args.addPositional grammar word) words

/-- Sorts the words of a command. -/
def scan (grammar : Grammar) (words : List String) : Option Arguments :=
  scanFrom grammar none {} words

end Arguments

/-- An unsigned 64-bit number in decimal digits, with a plus sign or none. -/
def decimal64? (word : String) : Option Nat :=
  let digits := match word.toList with
    | '+' :: cs => cs
    | cs => cs
  if digits.isEmpty || !digits.all Char.isDigit then none
  else
    let n := digits.foldl (fun n c => 10 * n + (c.toNat - '0'.toNat)) 0
    if n < 2 ^ 64 then some n else none

end SuperH.Cli
