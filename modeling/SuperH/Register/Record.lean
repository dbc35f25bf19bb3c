import SuperH.Json.Parser
import SuperH.Register.Binding

/-!
# Profile records

The JSON form of profiles and bindings. Positions and sizes are unsigned 32-bit numbers; a register
without a class is a general one, and a profile may have no program counter.

* `Profile.ofJson?` reads a record as it is, `Profile.ofText` reads a text and validates;
* `toJson` writes a register, a profile or a binding.
-/

namespace SuperH

namespace Register

def ofJson? (value : Json) : Option Register := do
  let [name, offset, size, cls] ← value.record? ["name", "offset", "size", "class"] | none
  return {
    name := ← (← name).str?
    offset := ← (← offset).nat? (2 ^ 32)
    size := ← (← size).nat? (2 ^ 32)
    cls := ← Json.withDefault .gpr (fun v => v.tag?.bind RegClass.ofTag?) cls }

def toJson (r : Register) : Json :=
  .obj [("name", .str r.name), ("offset", .int r.offset), ("size", .int r.size),
    ("class", .str r.cls.tag)]

end Register

namespace Profile

/-- Reads a profile without validating it. -/
def ofJson? (value : Json) : Option Profile := do
  let [registers, pc] ← value.record? ["items", "pc"] | none
  return {
    registers := ← (← (← registers).arr?).mapM Register.ofJson?
    pc := ← Json.withDefault none (Json.nullable Json.str?) pc }

/-- Reads a valid profile. -/
def ofText (text : String) : Except ProfileError Profile :=
  match (Json.skim? text).bind ofJson? with
  | some profile => profile.checked
  | none => .error .malformed

def toJson (profile : Profile) : Json :=
  .obj [("items", .arr (profile.registers.map Register.toJson)), ("pc", Json.ofString? profile.pc)]

end Profile

def Binding.toJson (binding : Binding) : Json :=
  .obj [("items", .arr (binding.items.map fun b =>
    .obj [("name", .str b.name), ("size", .int b.size)]))]

end SuperH
