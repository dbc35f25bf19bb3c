import SuperH.Bits.Basic

/-!
# Hexadecimal text

* `hex n` : lower-case digits without leading zeros, `0` for zero;
* `hexPadded k n` : at least `k` digits;
* `Bits.text` : `0x` and the digits of the unsigned value, written limb by limb; `Bits.typedText`
  adds the width.
-/

namespace SuperH

/-- Hexadecimal digits, most significant first, without leading zeros. -/
def hexDigits (n : Nat) : List Char := Nat.toDigits 16 n

/-- Hexadecimal digits, filled up with leading zeros to at least `k`. -/
def hexDigitsPadded (k n : Nat) : List Char :=
  let digits := hexDigits n
  List.replicate (k - digits.length) '0' ++ digits

/-- A number as `0x` and at least `k` hexadecimal digits. -/
def hexPadded (k n : Nat) : String := String.ofList ('0' :: 'x' :: hexDigitsPadded k n)

namespace Bits

/-- The hexadecimal digits of a list of limbs, most significant limb first: the first limb that is
not zero has no leading zeros, and every limb after it has sixteen digits. -/
def limbDigits (ls : List Nat) : List Char :=
  match ls.dropWhile (· == 0) with
  | [] => ['0']
  | top :: rest => hexDigits top ++ rest.flatMap (hexDigitsPadded 16)

/-- The unsigned value as `0x` and hexadecimal digits. -/
def text (x : Bits) : String := String.ofList ('0' :: 'x' :: limbDigits x.limbs.reverse)

/-- The value and, after a colon, the width. -/
def typedText (x : Bits) : String := x.text ++ ":" ++ toString x.width

end Bits
end SuperH
