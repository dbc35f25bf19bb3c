import Mathlib.Data.List.Induction
import SuperH.Proofs.Bits.BitVec
import SuperH.Proofs.Text.Hex

/-!
# Images of bit-vectors

* `IsHexNumeral` : what the hexadecimal numeral of a number is; the digits of a number are the only one
  (`isHexNumeral_iff`);
* `Bits.exists_ofLeBytes`, `Bits.ofLeBytes_roundTrip_iff`, `Bits.ofLeBytes_toLeBytes` : bytes and back, either way around. The
  number of bits of an image is cut to 32 bits, so an image of `2 ^ 29` bytes or more is not read back;
* `byte_and_text_images` : the bytes and the text of every vector, whatever its limbs are.
-/

namespace SuperH

/-! ## Numerals -/

/-- The number of digits of base sixteen, most significant first. -/
def hexNumber (ds : List Nat) : Nat := ds.foldl (16 * · + ·) 0

/-- The characters of digits of base sixteen that have the value `n`. A zero is in front only if nothing follows it. -/
def IsHexNumeral (n : Nat) (cs : List Char) : Prop :=
  ∃ ds : List Nat, cs = ds.map Nat.digitChar ∧ ds ≠ [] ∧ (∀ d ∈ ds, d < 16) ∧ hexNumber ds = n ∧
    (ds.head? = some 0 → ds = [0])

theorem hexNumber_append (ds : List Nat) (d : Nat) : hexNumber (ds ++ [d]) = 16 * hexNumber ds + d := by
  rw [hexNumber, List.foldl_append]
  rfl

theorem head?_append_singleton {ds : List Nat} (h : ds ≠ []) (d : Nat) : (ds ++ [d]).head? = ds.head? := by
  rw [List.head?_append, List.head?_eq_some_head h, Option.some_or]

/-- Each digit stands apart from those before it, which are a numeral of their own. -/
theorem hexDigits_hexNumber {ds : List Nat} (hne : ds ≠ []) (hlt : ∀ d ∈ ds, d < 16) (hhead : ds.head? ≠ some 0) :
    0 < hexNumber ds ∧ hexDigits (hexNumber ds) = ds.map Nat.digitChar := by
  induction ds using List.reverseRecOn with
  | nil => exact absurd rfl hne
  | append_singleton ds d ih =>
    have hd : d < 16 := hlt d (by simp)
    have hdigit : hexDigits d = [d.digitChar] := Nat.toDigits_of_lt_base hd
    rw [hexNumber_append, List.map_append, List.map_singleton]
    by_cases hds : ds = []
    · subst hds
      have hpos : 0 < d := Nat.pos_of_ne_zero fun h => hhead (congrArg some h)
      exact ⟨by simpa [hexNumber] using hpos, by simpa [hexNumber] using hdigit⟩
    · rw [head?_append_singleton hds] at hhead
      obtain ⟨hpos, hdigits⟩ := ih hds (fun x hx => hlt x (List.mem_append_left _ hx)) hhead
      refine ⟨by omega, ?_⟩
      rw [← hdigits, ← hdigit]
      exact (Nat.toDigits_append_toDigits (by decide) hpos hd).symm

theorem isHexNumeral_hexDigits (n : Nat) : IsHexNumeral n (hexDigits n) := by
  induction n using Nat.strongRecOn with
  | ind n ih =>
    rcases Nat.lt_or_ge n 16 with hn | hn
    · refine ⟨[n], Nat.toDigits_of_lt_base hn, nofun, List.forall_mem_singleton.2 hn, ?_, fun h => ?_⟩
      · rw [hexNumber, List.foldl_cons, List.foldl_nil, Nat.mul_zero, Nat.zero_add]
      · exact congrArg (fun d => [d]) (Option.some.inj h)
    · obtain ⟨ds, hcs, hne, hlt, hvalue, hhead⟩ := ih (n / 16) (Nat.div_lt_self (by omega) (by decide))
      have hsplit : hexDigits n = hexDigits (n / 16) ++ [(n % 16).digitChar] := Nat.toDigits_of_base_le (by decide) hn
      refine ⟨ds ++ [n % 16], ?_, by simp, ?_, ?_, fun h => ?_⟩
      · rw [hsplit, hcs, List.map_append, List.map_singleton]
      · exact List.forall_mem_append.2 ⟨hlt, List.forall_mem_singleton.2 (Nat.mod_lt _ (by decide))⟩
      · rw [hexNumber_append, hvalue, Nat.div_add_mod]
      · -- a number of two digits has a first one that is not zero
        rw [head?_append_singleton hne] at h
        have hzero : n / 16 = 0 := by
          rw [← hvalue, hhead h]
          rfl
        omega

theorem isHexNumeral_iff {n : Nat} {cs : List Char} : IsHexNumeral n cs ↔ cs = hexDigits n := by
  refine ⟨fun ⟨ds, hcs, hne, hlt, hvalue, hhead⟩ => ?_, fun h => h ▸ isHexNumeral_hexDigits n⟩
  subst hcs hvalue
  by_cases hzero : ds.head? = some 0
  · rw [hhead hzero]
    rfl
  · exact (hexDigits_hexNumber hne hlt hzero).2.symm

/-! ## Bytes -/

namespace Bits

/-- A vector of whole bytes is written to the low bytes of the number. -/
theorem toLeBytes_ofNat {n v : Nat} (h : 0 < 8 * n) : (ofNat (8 * n) v h).toLeBytes = leBytes n v := by
  have hcount : (8 * n + 7) / 8 = n := by omega
  rw [toLeBytes_eq, width_ofNat, toNat_ofNat, hcount, Limbs.leBytes_mod]

theorem leBytes_ofLeBytes_take {n : Nat} {bytes : List UInt8} (h : n ≤ bytes.length) :
    leBytes n (SuperH.ofLeBytes bytes) = bytes.take n := by
  have htake := leBytes_ofLeBytes (bytes.take n)
  rwa [List.length_take_of_le h, Limbs.ofLeBytes_take, Limbs.leBytes_mod] at htake

/-- The number of bits of an image, of which 32 bits are kept, is that of the bytes that are left of its length. -/
theorem imageWidth_eq (n : Nat) : 8 * n % 2 ^ 32 = 8 * (n % 2 ^ 29) := Nat.mul_mod_mul_left 8 n (2 ^ 29)

/-- No width is left for the empty image, nor for one whose length is a multiple of `2 ^ 29`. -/
theorem ofLeBytes_eq_error {bytes : List UInt8} (h : bytes.length % 2 ^ 29 = 0) : ofLeBytes bytes = .error .zeroWidth := by
  rw [ofLeBytes_eq, sized, dif_neg]
  rw [imageWidth_eq, h]
  exact Nat.lt_irrefl 0

/-- The vector of any other image has its first bytes, as many as are left of the length. -/
theorem exists_ofLeBytes {bytes : List UInt8} (h : 0 < bytes.length % 2 ^ 29) :
    ∃ x, ofLeBytes bytes = .ok x ∧ x.width = 8 * (bytes.length % 2 ^ 29) ∧
      x.toNat = SuperH.ofLeBytes (bytes.take (bytes.length % 2 ^ 29)) ∧ x.toLeBytes = bytes.take (bytes.length % 2 ^ 29) := by
  have hpos : 0 < 8 * (bytes.length % 2 ^ 29) := Nat.mul_pos (by decide) h
  have hread : ofLeBytes bytes = .ok (ofNat (8 * (bytes.length % 2 ^ 29)) (SuperH.ofLeBytes bytes) hpos) := by
    simp only [ofLeBytes_eq, imageWidth_eq, sized, hpos, dite_true]
  refine ⟨_, hread, rfl, ?_, ?_⟩
  · rw [toNat_ofNat, Limbs.ofLeBytes_take]
  · rw [toLeBytes_ofNat, leBytes_ofLeBytes_take (Nat.mod_le ..)]

/-- An image is read back exactly if 32 bits hold the number of its bits. -/
theorem ofLeBytes_roundTrip_iff {bytes : List UInt8} (hne : bytes ≠ []) :
    (∃ x, ofLeBytes bytes = .ok x ∧ x.toLeBytes = bytes) ↔ 8 * bytes.length < 2 ^ 32 := by
  have hlength : 0 < bytes.length := List.length_pos_iff.2 hne
  constructor
  · rintro ⟨x, hread, hback⟩
    rcases Nat.eq_zero_or_pos (bytes.length % 2 ^ 29) with hzero | hpos
    · rw [ofLeBytes_eq_error hzero] at hread
      cases hread
    · obtain ⟨y, hy, _, _, hbytes⟩ := exists_ofLeBytes hpos
      obtain rfl : y = x := Except.ok.inj (hy.symm.trans hread)
      -- the bytes that are read are all of them
      have hall : bytes.length % 2 ^ 29 = bytes.length := by
        have htake := congrArg List.length (hbytes.symm.trans hback)
        rwa [List.length_take_of_le (Nat.mod_le ..)] at htake
      omega
  · intro hlt
    have hall : bytes.length % 2 ^ 29 = bytes.length := Nat.mod_eq_of_lt (by omega)
    obtain ⟨x, hread, _, _, hbytes⟩ := exists_ofLeBytes (hall.symm ▸ hlength)
    rw [hall, List.take_length] at hbytes
    exact ⟨x, hread, hbytes⟩

theorem length_toLeBytes (x : Bits) : x.toLeBytes.length = (x.width + 7) / 8 := by
  rw [toLeBytes_eq, length_leBytes]

/-- The width that a byte image has room for. -/
theorem width_le_image (x : Bits) : x.width ≤ 8 * ((x.width + 7) / 8) := by omega

/-- The bytes of a vector are those of its value, in the width that they have room for. -/
theorem ofLeBytes_toLeBytes {x : Bits} (hlt : x.width ≤ 2 ^ 32 - 8) :
    ofLeBytes x.toLeBytes =
      .ok (x.setWidth (8 * ((x.width + 7) / 8)) (Nat.lt_of_lt_of_le x.width_pos x.width_le_image)) := by
  have hlength := x.length_toLeBytes
  have hpos := x.width_pos
  rw [ofLeBytes_of_lt (by omega) (by omega)]
  refine congrArg Except.ok (ext_toNat (congrArg (8 * ·) hlength) ?_)
  rw [toNat_ofNat, toNat_setWidth, hlength, toLeBytes_eq, ofLeBytes_leBytes, Nat.mod_mod]

/-- The bytes of a vector of the seven largest widths have room for a width that 32 bits do not hold. -/
theorem ofLeBytes_toLeBytes_error {x : Bits} (hgt : 2 ^ 32 - 8 < x.width) (hlt : x.width < 2 ^ 32) :
    ofLeBytes x.toLeBytes = .error .zeroWidth := by
  apply ofLeBytes_eq_error
  rw [x.length_toLeBytes]
  omega

end Bits

/-- A byte list that is not empty is the image of a vector exactly if 32 bits hold the number of its bits: it is then the image of
the one of so many bytes that has its little-endian number as value. Of a longer list as many first bytes are read as are left of
its length, and there is no vector if none are. A vector has the bytes that its width needs, and they are those of the vector
filled up with zeros to whole bytes, unless that is a width of `2 ^ 32`. The text is `0x` and the hexadecimal numeral of the
value, and nothing else is; vectors of one width are told apart by it. -/
theorem byte_and_text_images {bytes : List UInt8} (hne : bytes ≠ []) (x : Bits) :
    ((∃ v, Bits.ofLeBytes bytes = .ok v ∧ v.toLeBytes = bytes) ↔ 8 * bytes.length < 2 ^ 32) ∧
    (8 * bytes.length < 2 ^ 32 → ∃ v, Bits.ofLeBytes bytes = .ok v ∧ v.width = 8 * bytes.length ∧
      v.toNat = ofLeBytes bytes ∧ v.toLeBytes = bytes) ∧
    (0 < bytes.length % 2 ^ 29 → ∃ v, Bits.ofLeBytes bytes = .ok v ∧ v.width = 8 * (bytes.length % 2 ^ 29) ∧
      v.toLeBytes = bytes.take (bytes.length % 2 ^ 29)) ∧
    (bytes.length % 2 ^ 29 = 0 → Bits.ofLeBytes bytes = .error .zeroWidth) ∧
    x.toLeBytes.length = (x.width + 7) / 8 ∧
    (x.width ≤ 2 ^ 32 - 8 → ∃ h, Bits.ofLeBytes x.toLeBytes = .ok (x.setWidth (8 * ((x.width + 7) / 8)) h) ∧
      (x.setWidth (8 * ((x.width + 7) / 8)) h).toNat = x.toNat) ∧
    (2 ^ 32 - 8 < x.width → x.width < 2 ^ 32 → Bits.ofLeBytes x.toLeBytes = .error .zeroWidth) ∧
    (∀ cs : List Char, x.text = String.ofList ('0' :: 'x' :: cs) ↔ IsHexNumeral x.toNat cs) ∧
    ∀ y : Bits, x.width = y.width → x.text = y.text → x = y := by
  refine ⟨Bits.ofLeBytes_roundTrip_iff hne, fun hlt => ?_, fun hpos => ?_, Bits.ofLeBytes_eq_error, x.length_toLeBytes,
    fun hle => ?_, Bits.ofLeBytes_toLeBytes_error, fun cs => ?_, fun y hwidth htext => ?_⟩
  · have hpos : 0 < 8 * bytes.length := Nat.mul_pos (by decide) (List.length_pos_iff.2 hne)
    refine ⟨_, Bits.ofLeBytes_of_lt hpos hlt, rfl, ?_, ?_⟩
    · rw [Bits.toNat_ofNat, Nat.mod_eq_of_lt (ofLeBytes_lt bytes)]
    · rw [Bits.toLeBytes_ofNat, leBytes_ofLeBytes]
  · obtain ⟨v, hread, hwidth, _, hbytes⟩ := Bits.exists_ofLeBytes hpos
    exact ⟨v, hread, hwidth, hbytes⟩
  · have hlt : x.toNat < 2 ^ (8 * ((x.width + 7) / 8)) :=
      Nat.lt_of_lt_of_le x.toNat_lt (Nat.pow_le_pow_right (by decide) x.width_le_image)
    refine ⟨_, Bits.ofLeBytes_toLeBytes hle, ?_⟩
    rw [Bits.toNat_setWidth, Nat.mod_eq_of_lt hlt]
  · rw [isHexNumeral_iff, Bits.text_eq, String.ofList_inj, List.cons_inj_right, List.cons_inj_right, eq_comm]
  · exact Bits.ext_toNat hwidth (Bits.toNat_inj_of_text htext)

/-- Nine bytes take two limbs; the bytes of the largest width have no vector; and a vector of three limbs of which the one in the
middle is zero, made in two ways. -/
theorem byte_and_text_images_apart :
    let bytes : List UInt8 := [1, 2, 3, 4, 5, 6, 7, 8, 9]
    let x := Bits.ofNat 130 (2 ^ 128 + 0xab)
    let y := (Bits.ofNat 150 (2 ^ 128 + 0xab)).setWidth 130
    let numeral := '1' :: (List.replicate 30 '0' ++ ['a', 'b'])
    bytes ≠ [] ∧ 8 * bytes.length < 2 ^ 32 ∧ (∃ v, Bits.ofLeBytes bytes = .ok v ∧ v.toLeBytes = bytes) ∧
    (∃ v, Bits.ofLeBytes bytes = .ok v ∧ v.width = 72 ∧ v.toNat = 0x090807060504030201 ∧ v.toLeBytes = bytes) ∧
    (0 < bytes.length % 2 ^ 29 ∧ ∃ v, Bits.ofLeBytes bytes = .ok v ∧ v.width = 72 ∧ v.toLeBytes = bytes) ∧
    (x.toLeBytes.length = 17 ∧ ∃ z, Bits.ofLeBytes x.toLeBytes = .ok z ∧ z.width = 136 ∧ z.toNat = x.toNat) ∧
    Bits.ofLeBytes (Bits.zero (2 ^ 32 - 1)).toLeBytes = .error .zeroWidth ∧
    x.text = String.ofList ('0' :: 'x' :: numeral) ∧ x.width = y.width ∧ x.text = y.text ∧ x = y := by
  intro bytes x y numeral
  have hne : bytes ≠ [] := by decide
  obtain ⟨hback, hbytes, hfirst, -, hlength, himage, -, htext, hinj⟩ := byte_and_text_images hne x
  obtain ⟨-, -, -, -, -, -, hlargest, -, -⟩ := byte_and_text_images hne (Bits.zero (2 ^ 32 - 1))
  obtain ⟨-, -, -, -, -, -, -, hytext, -⟩ := byte_and_text_images hne y
  have hx : x.toNat = 2 ^ 128 + 0xab := Bits.toNat_ofNat
  have hy : y.toNat = 2 ^ 128 + 0xab := by
    rw [Bits.toNat_setWidth, Bits.toNat_ofNat]
    decide
  have hnumeral : IsHexNumeral (2 ^ 128 + 0xab) numeral :=
    ⟨1 :: (List.replicate 30 0 ++ [10, 11]), by decide, by decide, by decide, by decide, by decide⟩
  have hxtext : x.text = String.ofList ('0' :: 'x' :: numeral) := (htext numeral).2 (hx ▸ hnumeral)
  have hsame : x.text = y.text := hxtext.trans ((hytext numeral).2 (hy ▸ hnumeral)).symm
  refine ⟨hne, by decide, hback.2 (by decide), hbytes (by decide), ⟨by decide, hfirst (by decide)⟩, ?_, ?_, hxtext, rfl, hsame,
    hinj y rfl hsame⟩
  · have hcount : (x.width + 7) / 8 = 17 := by
      show (130 + 7) / 8 = 17
      rfl
    have hle : x.width ≤ 2 ^ 32 - 8 := by
      show 130 ≤ 2 ^ 32 - 8
      decide
    obtain ⟨_, hz, hvalue⟩ := himage hle
    exact ⟨hlength.trans hcount, _, hz, congrArg (8 * ·) hcount, hvalue⟩
  · refine hlargest ?_ ?_
    · show 2 ^ 32 - 8 < 2 ^ 32 - 1
      decide
    · show 2 ^ 32 - 1 < 2 ^ 32
      decide

/-- An image of `2 ^ 29` bytes has no vector, and one that is a byte longer is read as its first byte. -/
theorem byte_image_past_width :
    List.replicate (2 ^ 29) (0 : UInt8) ≠ [] ∧ Bits.ofLeBytes (List.replicate (2 ^ 29) 0) = .error .zeroWidth ∧
    ∃ x, Bits.ofLeBytes (List.replicate (2 ^ 29 + 1) 0) = .ok x ∧ x.width = 8 ∧ x.toLeBytes = [0] := by
  have hlength (n : Nat) : (List.replicate n (0 : UInt8)).length = n := List.length_replicate
  have hleft : (2 ^ 29 + 1) % 2 ^ 29 = 1 := by decide
  refine ⟨List.ne_nil_of_length_pos ?_, Bits.ofLeBytes_eq_error ?_, ?_⟩
  · rw [hlength]
    decide
  · rw [hlength]
    decide
  · have hpos : 0 < (List.replicate (2 ^ 29 + 1) (0 : UInt8)).length % 2 ^ 29 := by
      rw [hlength, hleft]
      decide
    obtain ⟨x, hread, hwidth, _, hbytes⟩ := Bits.exists_ofLeBytes hpos
    rw [hlength, hleft] at hwidth hbytes
    refine ⟨x, hread, hwidth, hbytes.trans ?_⟩
    rw [List.take_replicate]
    rfl

end SuperH
