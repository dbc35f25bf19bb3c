import SuperH.Json.Basic
import SuperH.Vm.Basic

/-!
# Configuration records

The JSON form of an interpreter's configuration; a field that is left out has its default.
-/

namespace SuperH.VmConfig

def ofJson? (value : Json) : Option VmConfig := do
  let [pcBits, bigEndian, memKeyBits] ←
    value.record? ["pc_bits", "big_endian", "mem_key_bits"] | none
  let width := Json.nat? (2 ^ 32)
  return {
    pcBits := ← Json.withDefault 32 width pcBits
    bigEndian := ← Json.withDefault false Json.bool? bigEndian
    memKeyBits := ← Json.withDefault 32 width memKeyBits }

def toJson (config : VmConfig) : Json :=
  .obj [("pc_bits", .int config.pcBits), ("big_endian", .bool config.bigEndian),
    ("mem_key_bits", .int config.memKeyBits)]

end SuperH.VmConfig
