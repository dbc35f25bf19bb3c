import SuperH.Bits.Limbs
import SuperH.Bits.Product

/-!
# Bit-vectors

A `Bits` is a value of a width that is known only when the program runs. It is stored as limbs
whose bits past the width are zero, so two vectors are equal iff their widths and values are.

* `toNat`, `toInt` : the unsigned and the two's complement reading;
* `ofNat`, `ofInt`, `ofLimbs`, `zero`, `ones`, `ofBool`, `ofLeBytes` : values cut to a width;
* `+`, `-`, `*`, `&&&`, `|||`, `^^^` : limb arithmetic, meant for operands of one width, and
  `add`, `sub`, … which refuse operands of different widths;
* `shl`, `lshr`, `ashr`, `setWidth`, `signExtend`, `slice`, `ucmp`, `scmp` : the other operations;
* `Fault` : a width or an index outside of what an operation is defined for.
-/

namespace SuperH

/-- A use of a bit-vector operation outside of its domain. -/
inductive Fault where
  | zeroWidth
  | widthMismatch (operation : String)
  /-- a bit index or a bit range that leaves the vector -/
  | outOfRange
  deriving DecidableEq, Repr

/-- What a program says of the fault. -/
def Fault.message : Fault → String
  | .zeroWidth => "bit-vector width must be at least 1"
  | .widthMismatch operation => "bit-vector width mismatch in " ++ operation
  | .outOfRange => "bit range out of bounds"

/-- A bit-vector: exactly the limbs that its width needs, with no bit set past the width. -/
structure Bits where
  width : Nat
  /-- 64-bit limbs, least significant first -/
  limbs : List Nat
  width_pos : 0 < width
  length_limbs : limbs.length = Limbs.count width
  limb_lt : ∀ l ∈ limbs, l < 2 ^ 64
  value_lt : Limbs.value limbs < 2 ^ width
  deriving DecidableEq

namespace Bits

/-! ## Readings -/

def toNat (x : Bits) : Nat := Limbs.toNat x.limbs

theorem toNat_eq_value (x : Bits) : x.toNat = Limbs.value x.limbs := Limbs.toNat_eq_value _

theorem toNat_lt (x : Bits) : x.toNat < 2 ^ x.width := x.toNat_eq_value ▸ x.value_lt

/-- The bit at `index`; a bit past the width is clear. -/
def testBit (x : Bits) (index : Nat) : Bool := x.toNat.testBit index

def msb (x : Bits) : Bool := x.testBit (x.width - 1)

def lsb (x : Bits) : Bool := x.testBit 0

def toInt (x : Bits) : Int := if x.msb then (x.toNat : Int) - 2 ^ x.width else x.toNat

def isZero (x : Bits) : Bool := x.limbs.all (· == 0)

def low64 (x : Bits) : Nat := x.limbs.headD 0

/-- The value, if it is below `bound`. Only the lowest limb is compared; any other makes the value
too large. -/
def below? (x : Bits) (bound : Nat) : Option Nat :=
  if x.limbs.tail.any (· != 0) then none
  else if x.low64 < bound then some x.low64 else none

/-- The bytes, least significant first. A last partial byte is filled up with zeros. -/
def toLeBytes (x : Bits) : List UInt8 :=
  (x.limbs.flatMap (leBytes 8)).take ((x.width + 7) / 8)

/-! ## Construction -/

/-- The low `width` bits of a list of limbs. -/
def ofLimbs (width : Nat) (h : 0 < width) (ls : List Nat) : Bits where
  width
  limbs := Limbs.trim (Limbs.count width) width ls
  width_pos := h
  length_limbs := Limbs.length_trim ..
  limb_lt := Limbs.lt_of_mem_trim
  value_lt := Limbs.value_trim_lt ..

/-- The low `width` bits of a number. -/
def ofNat (width v : Nat) (h : 0 < width := by decide) : Bits :=
  ofLimbs width h (Limbs.ofNat (Limbs.count width) v)

/-- The low `width` bits of an integer in two's complement. -/
def ofInt (width : Nat) (v : Int) (h : 0 < width := by decide) : Bits :=
  ofNat width (v % 2 ^ width).toNat h

def ofBool (b : Bool) : Bits := ofNat 1 b.toNat

def zero (width : Nat) (h : 0 < width := by decide) : Bits := ofLimbs width h []

def ones (width : Nat) (h : 0 < width := by decide) : Bits :=
  ofLimbs width h (List.replicate (Limbs.count width) (2 ^ 64 - 1))

/-- Builds a vector if its width is positive. -/
def sized (width : Nat) (build : 0 < width → Bits) : Except Fault Bits :=
  if h : 0 < width then .ok (build h) else .error .zeroWidth

/-- The vector with the given bytes, least significant first. The width is eight times their number, of which 32 bits are kept;
bytes past the width are dropped. -/
def ofLeBytes (bytes : List UInt8) : Except Fault Bits :=
  let width := 8 * bytes.length % 2 ^ 32
  sized width fun h => ofLimbs width h (Limbs.ofBytes (Limbs.count width) bytes)

/-! ## Operations of one operand -/

/-- The low `width` bits, filled up with zeros. -/
def setWidth (x : Bits) (width : Nat) (h : 0 < width := by decide) : Bits :=
  ofLimbs width h x.limbs

/-- The low `width` bits, filled up with copies of the most significant bit. -/
def signExtend (x : Bits) (width : Nat) (h : 0 < width := by decide) : Bits :=
  ofNat width (if x.msb then x.toNat + (2 ^ width - 2 ^ x.width) else x.toNat) h

/-- The low 64 bits of the two's complement value. -/
def lowInt64 (x : Bits) : Int :=
  if 64 ≤ x.width then (ofNat 64 x.low64).toInt else (x.signExtend 64).toInt

/-- The bits from `lo` up to but without `hi`. -/
def slice (x : Bits) (lo hi : Nat) : Except Fault Bits :=
  if lo ≤ hi ∧ hi ≤ x.width then
    sized (hi - lo) fun h => ofNat (hi - lo) (x.toNat >>> lo) h
  else .error .outOfRange

/-- The bit at `index`, which has to lie in the vector. -/
def bit (x : Bits) (index : Nat) : Except Fault Bool :=
  if index < x.width then .ok (x.testBit index) else .error .outOfRange

instance : Complement Bits where
  complement x := ofLimbs x.width x.width_pos (x.limbs.map (2 ^ 64 - 1 - ·))

/-- Moves the bits up and fills with zeros. -/
def shl (x : Bits) (amount : Nat) : Bits :=
  if x.width ≤ amount then zero x.width x.width_pos
  else ofNat x.width (x.toNat <<< amount) x.width_pos

/-- Moves the bits down and fills with zeros. -/
def lshr (x : Bits) (amount : Nat) : Bits :=
  if x.width ≤ amount then zero x.width x.width_pos
  else ofNat x.width (x.toNat >>> amount) x.width_pos

/-- Moves the bits down and fills with copies of the most significant bit. -/
def ashr (x : Bits) (amount : Nat) : Bits :=
  if x.width ≤ amount then
    if x.msb then ones x.width x.width_pos else zero x.width x.width_pos
  else
    let fill := if x.msb then 2 ^ x.width - 2 ^ (x.width - amount) else 0
    ofNat x.width (x.toNat >>> amount + fill) x.width_pos

/-! ## Arithmetic on operands of one width -/

/-- The vector of the left operand's width whose limbs are computed from both operands' limbs. -/
def ofLimbs₂ (f : List Nat → List Nat → List Nat) (x y : Bits) : Bits :=
  ofLimbs x.width x.width_pos (f x.limbs y.limbs)

instance : Add Bits := ⟨ofLimbs₂ (Limbs.add false)⟩
instance : Sub Bits := ⟨ofLimbs₂ (Limbs.sub false)⟩
instance : Mul Bits := ⟨ofLimbs₂ Limbs.mul⟩
instance : Neg Bits := ⟨fun x => zero x.width x.width_pos - x⟩
instance : AndOp Bits := ⟨ofLimbs₂ (List.zipWith (· &&& ·))⟩
instance : OrOp Bits := ⟨ofLimbs₂ (List.zipWith (· ||| ·))⟩
instance : XorOp Bits := ⟨ofLimbs₂ (List.zipWith (· ^^^ ·))⟩

/-- Refuses operands of different widths. -/
def sameWidth {α : Type} (operation : String) (x y : Bits) (result : α) : Except Fault α :=
  if x.width = y.width then .ok result else .error (.widthMismatch operation)

def add (x y : Bits) : Except Fault Bits := sameWidth "add" x y (x + y)

def sub (x y : Bits) : Except Fault Bits := sameWidth "sub" x y (x - y)

def mul (x y : Bits) : Except Fault Bits := sameWidth "mul" x y (x * y)

def and (x y : Bits) : Except Fault Bits := sameWidth "and" x y (x &&& y)

def or (x y : Bits) : Except Fault Bits := sameWidth "or" x y (x ||| y)

def xor (x y : Bits) : Except Fault Bits := sameWidth "xor" x y (x ^^^ y)

def ucmp (x y : Bits) : Except Fault Ordering := sameWidth "ucmp" x y (Limbs.cmp x.limbs y.limbs)

/-- The two's complement order: a negative value comes first, and otherwise the bits decide. -/
def scmp (x y : Bits) : Except Fault Ordering :=
  sameWidth "scmp" x y <|
    match x.msb, y.msb with
    | true, false => .lt
    | false, true => .gt
    | _, _ => Limbs.cmp x.limbs y.limbs

/-! ## Equality -/

/-- A list of limbs is determined by its length and its value. -/
theorem limbs_inj {as bs : List Nat} (ha : ∀ l ∈ as, l < 2 ^ 64) (hb : ∀ l ∈ bs, l < 2 ^ 64)
    (hlen : as.length = bs.length) (h : Limbs.value as = Limbs.value bs) : as = bs := by
  induction as generalizing bs with
  | nil => cases bs with
    | nil => rfl
    | cons => simp at hlen
  | cons a as ih => cases bs with
    | nil => simp at hlen
    | cons b bs =>
      have ha' := ha a (by simp)
      have hb' := hb b (by simp)
      simp only [Limbs.value] at h
      have hab : a = b := by omega
      have hrest : Limbs.value as = Limbs.value bs := by omega
      rw [hab, ih (fun l hl => ha l (by simp [hl])) (fun l hl => hb l (by simp [hl]))
        (by simpa using hlen) hrest]

/-- Two vectors are equal iff their widths and their unsigned values are. -/
theorem ext_toNat {x y : Bits} (hw : x.width = y.width) (h : x.toNat = y.toNat) : x = y := by
  rw [toNat_eq_value, toNat_eq_value] at h
  obtain ⟨w, ls, _, hlen, hlt, _⟩ := x
  obtain ⟨w', ls', _, hlen', hlt', _⟩ := y
  obtain rfl : w = w' := hw
  obtain rfl : ls = ls' := limbs_inj hlt hlt' (hlen.trans hlen'.symm) h
  rfl

end Bits
end SuperH
