import SuperH.Insn.Basic
import SuperH.Json.Basic

/-!
# Instruction records

The JSON form of a decoded instruction. Operand fields are unsigned 16-bit numbers, immediates have
32 bits, and of a record only the mnemonic is required.

* `ofJson?` reads a mnemonic, an access size, an operand or an instruction;
* `toJson` writes it with all of its fields.
-/

namespace SuperH

def Mnemonic.ofJson? (value : Json) : Option Mnemonic := value.tag?.bind ofTag?

def AccessSize.ofJson? (value : Json) : Option AccessSize := value.tag?.bind ofTag?

namespace Operand

/-- An unsigned 16-bit field. -/
def half? (value : Json) : Option Nat := value.nat? (2 ^ 16)

/-- The register and the displacement of a displaced operand. They are named, or listed if
`positional` allows it. -/
def displaced? (positional : Bool) (value : Json) : Option Operand := do
  if value.isArr && !positional then none
  let [some n, some disp] ← value.record? ["reg", "disp"] | none
  return .displaced (← half? n) (← half? disp)

/-- Reads an operand of the mode that a tag stands for. -/
def ofContent? (positional : Bool) (tag : String) (content : Json) : Option Operand :=
  match tag with
  | "reg_direct" => (half? content).map .reg
  | "reg_indirect" => (half? content).map .indirect
  | "post_inc" => (half? content).map .postInc
  | "pre_dec" => (half? content).map .preDec
  | "disp" => displaced? positional content
  | "indexed" => (half? content).map .indexed
  | "gbr_disp" => (half? content).map .gbrDisp
  | "pc_disp" => (half? content).map .pcDisp
  | "pc8" => (half? content).map .pcRel8
  | "pc12" => (half? content).map .pcRel12
  | "pc_reg" => (half? content).map .pcReg
  | "imm_u" => (content.nat? (2 ^ 32)).map .immU
  | "imm_s" => (content.int? 32).map .immS
  | _ => none

def ofJson? (value : Json) (positional : Bool := false) : Option Operand :=
  if value.tag? == some "gbr_indexed" then some .gbrIndexed
  else
    match value.variant? with
    | some (tag, some content) => ofContent? positional tag content
    | _ => none

/-- A variant with a number. -/
def tagged (tag : String) (n : Int) : Json := .obj [(tag, .int n)]

def toJson : Operand → Json
  | .reg n => tagged "reg_direct" n
  | .indirect n => tagged "reg_indirect" n
  | .postInc n => tagged "post_inc" n
  | .preDec n => tagged "pre_dec" n
  | .displaced n disp => .obj [("disp", .obj [("reg", .int n), ("disp", .int disp)])]
  | .indexed n => tagged "indexed" n
  | .gbrDisp disp => tagged "gbr_disp" disp
  | .gbrIndexed => .str "gbr_indexed"
  | .pcDisp disp => tagged "pc_disp" disp
  | .pcRel8 disp => tagged "pc8" disp
  | .pcRel12 disp => tagged "pc12" disp
  | .pcReg n => tagged "pc_reg" n
  | .immU v => tagged "imm_u" v
  | .immS v => tagged "imm_s" v

end Operand

namespace Insn

def ofJson? (value : Json) (positional : Bool := false) : Option Insn := do
  let readOperand := fun v => Operand.ofJson? v positional
  let [mnemonic, operands, size, opcode] ←
    value.record? ["mnemonic", "params", "scaling", "opcode"] | none
  return {
    mnemonic := ← Mnemonic.ofJson? (← mnemonic)
    operands := ← Json.withDefault [] (fun v => do (← v.arr?).mapM readOperand) operands
    size := ← Json.withDefault .unsized AccessSize.ofJson? size
    opcode := ← Json.withDefault 0 Operand.half? opcode }

def toJson (insn : Insn) : Json :=
  .obj [("mnemonic", .str insn.mnemonic.tag), ("params", .arr (insn.operands.map Operand.toJson)),
    ("scaling", .str insn.size.tag), ("opcode", .int insn.opcode)]

end Insn
end SuperH
