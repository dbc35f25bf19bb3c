/-!
# Mnemonics

The closed set of instructions that have a meaning, and two that have none: `invalid` for a word
that encodes no instruction and `unimpl` for one that is decoded but not modelled.

* `Mnemonic.tag` : the word that stands for a mnemonic in a record; `ofTag?` reads it back;
* `Mnemonic.title` : the tag as one capitalised word, as messages show it;
* `Mnemonic.describe?`, `name`, `className` : the row of the instruction table and its columns.
-/

namespace SuperH

inductive Mnemonic where
  | invalid | mov | movt | swap | xtrct | add | addc | addv | cmpEq | cmpHs | cmpGe | cmpHi
  | cmpGt | cmpPz | cmpPl | cmpStr | div1 | div0s | div0u | dmuls | dmulu | dt | exts | extu
  | mac | mul | muls | mulu | neg | negc | sub | subc | subv | and | not | or | tas | tst | xor
  | rotl | rotr | rotcl | rotcr | shad | shal | shar | shld | shll | shlr | shll2 | shlr2
  | shll8 | shlr8 | shll16 | shlr16 | bf | bfs | bt | bts | bra | braf | bsr | bsrf | jmp | jsr
  | rts | clrmac | clrs | clrt | ldc | lds | movca | nop | rte | sets | sett | sleep | stc
  | sts | unimpl
  deriving DecidableEq, Repr, Inhabited

namespace Mnemonic

/-- Every mnemonic, in the order of its declaration. -/
def all : List Mnemonic :=
  [.invalid, .mov, .movt, .swap, .xtrct, .add, .addc, .addv, .cmpEq, .cmpHs, .cmpGe, .cmpHi,
   .cmpGt, .cmpPz, .cmpPl, .cmpStr, .div1, .div0s, .div0u, .dmuls, .dmulu, .dt, .exts, .extu, .mac,
   .mul, .muls, .mulu, .neg, .negc, .sub, .subc, .subv, .and, .not, .or, .tas, .tst, .xor, .rotl,
   .rotr, .rotcl, .rotcr, .shad, .shal, .shar, .shld, .shll, .shlr, .shll2, .shlr2, .shll8, .shlr8,
   .shll16, .shlr16, .bf, .bfs, .bt, .bts, .bra, .braf, .bsr, .bsrf, .jmp, .jsr, .rts, .clrmac,
   .clrs, .clrt, .ldc, .lds, .movca, .nop, .rte, .sets, .sett, .sleep, .stc, .sts, .unimpl]

/-- The word that stands for the mnemonic in a record. -/
def tag : Mnemonic → String
  | .invalid => "invalid"
  | .mov => "mov"
  | .movt => "movt"
  | .swap => "swap"
  | .xtrct => "xtrct"
  | .add => "add"
  | .addc => "addc"
  | .addv => "addv"
  | .cmpEq => "cmp_eq"
  | .cmpHs => "cmp_hs"
  | .cmpGe => "cmp_ge"
  | .cmpHi => "cmp_hi"
  | .cmpGt => "cmp_gt"
  | .cmpPz => "cmp_pz"
  | .cmpPl => "cmp_pl"
  | .cmpStr => "cmp_str"
  | .div1 => "div1"
  | .div0s => "div0s"
  | .div0u => "div0u"
  | .dmuls => "dmuls"
  | .dmulu => "dmulu"
  | .dt => "dt"
  | .exts => "exts"
  | .extu => "extu"
  | .mac => "mac"
  | .mul => "mul"
  | .muls => "muls"
  | .mulu => "mulu"
  | .neg => "neg"
  | .negc => "negc"
  | .sub => "sub"
  | .subc => "subc"
  | .subv => "subv"
  | .and => "and"
  | .not => "not"
  | .or => "or"
  | .tas => "tas"
  | .tst => "tst"
  | .xor => "xor"
  | .rotl => "rotl"
  | .rotr => "rotr"
  | .rotcl => "rotcl"
  | .rotcr => "rotcr"
  | .shad => "shad"
  | .shal => "shal"
  | .shar => "shar"
  | .shld => "shld"
  | .shll => "shll"
  | .shlr => "shlr"
  | .shll2 => "shll2"
  | .shlr2 => "shlr2"
  | .shll8 => "shll8"
  | .shlr8 => "shlr8"
  | .shll16 => "shll16"
  | .shlr16 => "shlr16"
  | .bf => "bf"
  | .bfs => "bfs"
  | .bt => "bt"
  | .bts => "bts"
  | .bra => "bra"
  | .braf => "braf"
  | .bsr => "bsr"
  | .bsrf => "bsrf"
  | .jmp => "jmp"
  | .jsr => "jsr"
  | .rts => "rts"
  | .clrmac => "clrmac"
  | .clrs => "clrs"
  | .clrt => "clrt"
  | .ldc => "ldc"
  | .lds => "lds"
  | .movca => "movca"
  | .nop => "nop"
  | .rte => "rte"
  | .sets => "sets"
  | .sett => "sett"
  | .sleep => "sleep"
  | .stc => "stc"
  | .sts => "sts"
  | .unimpl => "unimpl"

def ofTag? (tag : String) : Option Mnemonic := all.find? (·.tag == tag)

/-- A word with its first letter in upper case. -/
def capitalised : List Char → List Char
  | [] => []
  | c :: cs => c.toUpper :: cs

/-- The tag with its parts capitalised and joined, as in `CmpEq`. -/
def title (m : Mnemonic) : String :=
  String.ofList ((m.tag.toList.splitOn '_').flatMap capitalised)

/-! ## The instruction table -/

/-- What an instruction is about. -/
inductive Family where
  | data | arithmetic | logic | shift | branch | system
  deriving DecidableEq, Repr

/-- The class column of a listing. -/
def Family.name : Family → String
  | .data => "data"
  | .arithmetic => "arithmetic"
  | .logic => "logic"
  | .shift => "shift"
  | .branch => "branch"
  | .system => "system"

/-- A row of the instruction table: the name that an assembler uses, and the family. -/
structure Row where
  mnemonic : Mnemonic
  assembler : String
  family : Family

/-- The rows of one family. -/
def rowsOf (family : Family) (names : List (Mnemonic × String)) : List Row :=
  names.map fun (mnemonic, assembler) => ⟨mnemonic, assembler, family⟩

/-- Every mnemonic that has a meaning, once. -/
def table : List Row :=
  rowsOf .data
      [(.mov, "mov"), (.movt, "movt"), (.movca, "movca.l"), (.swap, "swap"), (.xtrct, "xtrct")]
  ++ rowsOf .arithmetic
      [(.add, "add"), (.addc, "addc"), (.addv, "addv"), (.cmpEq, "cmp/eq"), (.cmpHs, "cmp/hs"),
       (.cmpGe, "cmp/ge"), (.cmpHi, "cmp/hi"), (.cmpGt, "cmp/gt"), (.cmpPz, "cmp/pz"),
       (.cmpPl, "cmp/pl"), (.cmpStr, "cmp/str"), (.div1, "div1"), (.div0s, "div0s"),
       (.div0u, "div0u"), (.dmuls, "dmuls.l"), (.dmulu, "dmulu.l"), (.dt, "dt"), (.exts, "exts"),
       (.extu, "extu"), (.mac, "mac"), (.mul, "mul.l"), (.muls, "muls.w"), (.mulu, "mulu.w"),
       (.neg, "neg"), (.negc, "negc"), (.sub, "sub"), (.subc, "subc"), (.subv, "subv")]
  ++ rowsOf .logic
      [(.and, "and"), (.not, "not"), (.or, "or"), (.tas, "tas.b"), (.tst, "tst"), (.xor, "xor")]
  ++ rowsOf .shift
      [(.rotl, "rotl"), (.rotr, "rotr"), (.rotcl, "rotcl"), (.rotcr, "rotcr"), (.shad, "shad"),
       (.shal, "shal"), (.shar, "shar"), (.shld, "shld"), (.shll, "shll"), (.shlr, "shlr"),
       (.shll2, "shll2"), (.shlr2, "shlr2"), (.shll8, "shll8"), (.shlr8, "shlr8"),
       (.shll16, "shll16"), (.shlr16, "shlr16")]
  ++ rowsOf .branch
      [(.bf, "bf"), (.bfs, "bf/s"), (.bt, "bt"), (.bts, "bt/s"), (.bra, "bra"), (.braf, "braf"),
       (.bsr, "bsr"), (.bsrf, "bsrf"), (.jmp, "jmp"), (.jsr, "jsr"), (.rts, "rts")]
  ++ rowsOf .system
      [(.clrmac, "clrmac"), (.clrs, "clrs"), (.clrt, "clrt"), (.ldc, "ldc"), (.lds, "lds"),
       (.nop, "nop"), (.rte, "rte"), (.sets, "sets"), (.sett, "sett"), (.sleep, "sleep"),
       (.stc, "stc"), (.sts, "sts")]

/-- The table's row of a mnemonic; `invalid` and `unimpl` have none. -/
def describe? (m : Mnemonic) : Option Row := table.find? (·.mnemonic == m)

/-- The assembler name, or the tag of a mnemonic that is not in the table. -/
def name (m : Mnemonic) : String := (m.describe?.map (·.assembler)).getD m.tag

/-- The class column of a listing, `-` outside of the table. -/
def className (m : Mnemonic) : String := (m.describe?.map (·.family.name)).getD "-"

end Mnemonic
end SuperH
