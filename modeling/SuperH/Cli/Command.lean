import SuperH.Cli.Arguments
import SuperH.Insn.Record
import SuperH.Json.Parser
import SuperH.Json.Printer
import SuperH.Memory.Linear
import SuperH.Register.Record
import SuperH.Session

/-!
# Commands

The program has three commands: `lift` lists the meaning of recorded instructions, `run` executes
them on fresh registers and lists the registers after, and `binding` lists the registers that a
profile binds.

* `Command.ofWords?` : the command that words ask for;
* `Command.output` : its output, given the files that it may read;
* `run` : the whole program, from words and files to an exit code and text.
-/

namespace SuperH.Cli

/-- What the program is asked to do. -/
inductive Command where
  | lift (input : String) (privileged : Bool)
  | run (input : String) (privileged bigEndian : Bool) (image : Option String) (memSize : Nat)
  | binding (profile : Option String) (json : Bool)
  deriving DecidableEq, Repr

/-- What a run of the program leaves. -/
structure Outcome where
  exitCode : Nat := 0
  stdout : String := ""
  stderr : String := ""

namespace Outcome

def error (message : String) : Outcome := { exitCode := 1, stderr := "Error: " ++ message ++ "\n" }

/-- An operation was used outside of its domain, after some output. -/
def fault (message : String) (stdout : String := "") : Outcome :=
  { exitCode := 101, stdout, stderr := message ++ "\n" }

end Outcome

/-- A value, or the outcome of a program that ends early. -/
abbrev Report := Except Outcome

abbrev Files := String → Option ByteArray

/-- A word filled up with blanks to a column's width. -/
def column (width : Nat) (word : String) : String :=
  String.ofList (word.toList ++ List.replicate (width - word.length) ' ')

def unlines (lines : List String) : String := String.join (lines.map (· ++ "\n"))

/-! ## Reading -/

/-- The memory of a run that is given no size. -/
def defaultMemSize : Nat := 64 * 1024

namespace Command

/-- The single positional word. -/
def input? (args : Arguments) : Option String :=
  match args.positionals with
  | [input] => some input
  | _ => none

/-- The command of a program call. -/
def ofWords? : List String → Option Command
  | "lift" :: words => do
    let args ← Arguments.scan ⟨["privileged"], [], 1⟩ words
    return .lift (← input? args) (args.has "privileged")
  | "run" :: words => do
    let args ← Arguments.scan ⟨["privileged", "big-endian"], ["image", "mem-size"], 1⟩ words
    let memSize ← match args.value? "mem-size" with
      | some word => decimal64? word
      | none => some defaultMemSize
    return .run (← input? args) (args.has "privileged") (args.has "big-endian")
      (args.value? "image") memSize
  | "binding" :: words => do
    let args ← Arguments.scan ⟨["json"], ["profile"], 0⟩ words
    return .binding (args.value? "profile") (args.has "json")
  | _ => none

/-- The files that a command may read. -/
def files : Command → List String
  | .lift input _ => [input]
  | .run input _ _ image _ => image.toList ++ [input]
  | .binding profile _ => profile.toList

end Command

/-- An instruction and its address. -/
structure Placed where
  pc : Nat
  insn : Insn

/-- Reads an instruction with its address, which has 64 bits. -/
def Placed.ofJson? (value : Json) : Option Placed := do
  let [some pc, some op] ← value.record? ["pc", "op"] | none
  return ⟨← pc.nat? (2 ^ 64), ← Insn.ofJson? op true⟩

def readFile (files : Files) (path : String) : Report ByteArray :=
  match files path with
  | some bytes => .ok bytes
  | none => .error (.error ("reading " ++ path))

def readText (files : Files) (path : String) : Report String := do
  match String.fromUTF8? (← readFile files path) with
  | some text => return text
  | none => throw (.error ("reading " ++ path))

/-- The instructions that a file lists. -/
def readPlaced (files : Files) (path : String) : Report (List Placed) := do
  let text ← readText files path
  let placed := do (← (← Json.skim? text).arr?).mapM Placed.ofJson?
  match placed with
  | some placed => return placed
  | none => throw (.error ("parsing " ++ path))

/-! ## Listings -/

/-- The line of an instruction: address, assembler name, class, and meaning or complaint. -/
def listing (privileged : Bool) (p : Placed) : String :=
  let meaning := match SuperH.lift p.insn p.pc privileged with
    | .ok lifted => lifted.text
    | .error e => "<" ++ e.message ++ ">"
  hexPadded 8 p.pc ++ "  " ++ column 8 p.insn.mnemonic.name ++ " "
    ++ column 10 p.insn.mnemonic.className ++ " " ++ meaning

/-- The lines of a register file: names and low 64 bits. -/
def registerLines (regs : RegisterFile) : List String :=
  regs.profile.registers.filterMap fun r =>
    match regs.get r.name with
    | .ok (some v) => some (column 6 r.name ++ " " ++ hexPadded 8 v)
    | _ => none

/-- The lines of a binding: names and sizes. -/
def bindingLines (binding : Binding) : List String :=
  binding.items.map fun b => column 6 b.name ++ " " ++ toString b.size

/-! ## Running -/

/-- What a run of instructions leaves: the exceptions' lines, the failure that ended it, and the
computer. -/
structure Transcript where
  lines : List String := []
  failure : Option (Failure Trap) := none
  computer : Computer LinearMemory

/-- Runs each instruction at its address. An exception is noted, and any other failure ends the
run. -/
def runPlaced (computer : Computer LinearMemory) : List Placed → Transcript
  | [] => { computer }
  | p :: rest =>
    let run : Computer.Run LinearMemory Unit := do
      let _ ← Computer.reset (BitVec.ofNat 32 p.pc)
      Computer.execute p.insn
    match run computer with
    | .ok () computer => runPlaced computer rest
    | .error (.error (.exception pc name)) computer =>
      let t := runPlaced computer rest
      { t with lines := (addressText pc ++ "  exception " ++ name) :: t.lines }
    | .error failure computer => { failure := some failure, computer }

/-- The output of a run: a fault leaves no registers to list. -/
def Transcript.outcome (t : Transcript) : Outcome :=
  let listed := t.lines ++ registerLines t.computer.session.regs
  match t.failure with
  | none => { stdout := unlines listed }
  | some (.error trap) =>
    { stdout := unlines listed, stderr := unlines ["TRAP: " ++ trap.message] }
  | some (.fault f) => .fault f.message (unlines t.lines)

/-- A computer with fresh registers and an image at the start of its memory. -/
def powerOn (bigEndian : Bool) (memory : LinearMemory) (image : List UInt8) :
    Report (Computer LinearMemory) := do
  let bus ← (memory.load 0 image).mapError (.error ·.message)
  match Session.sh4 bigEndian with
  | .ok session => return ⟨session, bus⟩
  | .error (.error e) => throw (.error e.message)
  | .error (.fault f) => throw (.fault f.message)

/-- Sets the flag of privileged mode. -/
def grantPrivilege (computer : Computer LinearMemory) : Computer LinearMemory :=
  match RegisterFile.set Flag.md.var 1 computer.session.regs with
  | .ok _ regs => { computer with session.regs := regs }
  | .error _ regs => { computer with session.regs := regs }

def Command.output (files : Files) : Command → Report Outcome
  | .lift input privileged => do
    return { stdout := unlines ((← readPlaced files input).map (listing privileged)) }
  | .run input privileged bigEndian image memSize => do
    let some memory := LinearMemory.allocate? memSize 0 bigEndian
      | throw (.fault "capacity overflow")
    let image ← image.mapM (readFile files)
    let computer ← powerOn bigEndian memory ((image.map (·.toList)).getD [])
    let computer := if privileged then grantPrivilege computer else computer
    return (runPlaced computer (← readPlaced files input)).outcome
  | .binding path json => do
    let profile ← match path with
      | some path => (Profile.ofText (← readText files path)).mapError (.error ·.message)
      | none => .ok Cpu.profile
    let binding := Binding.derive profile
    return { stdout := unlines (if json then [binding.toJson.pretty] else bindingLines binding) }

def usage : String :=
  unlines [
    "usage: lift FILE [--privileged]",
    "       run FILE [--privileged] [--big-endian] [--image FILE] [--mem-size N]",
    "       binding [--profile FILE] [--json]"]

/-- Runs the program. An error leaves exit code 1, and words that are no command leave 2. -/
def run (words : List String) (files : Files) : Outcome :=
  match Command.ofWords? words with
  | some command =>
    match command.output files with
    | .ok outcome => outcome
    | .error outcome => outcome
  | none => { exitCode := 2, stderr := usage }

end SuperH.Cli
