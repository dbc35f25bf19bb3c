import SuperH.Bits.Limbs

/-!
# Bits in words

A `Packed` is so many bits in 64-bit words, least significant first. The bits of the words past the length are dead: they
are there to be read by whatever goes word by word, and only `Packed.Canonical` has them clear.

* `Packed.Holds`, `Packed.DeadAs` : which bits are live, and that the dead ones are those of another;
* `Packed.ext_bit`, `Packed.bit_clearDead` : the bits determine the words, and those that `Packed.clearDead` leaves;
* `BitStore` : what a storage of bits can do. It is `Lawful` if its operations move the live bits as they say, and those that
  work in place keep to the live ones;
* `BitStore.plain` : a lawful storage, which writes the live bits over the old words and cleans nothing up.
-/

namespace SuperH

/-- So many bits in words. -/
structure Packed where
  length : Nat
  words : List (BitVec 64)
  deriving DecidableEq

namespace Packed

/-- The bit at a position, be it live or dead. -/
def bit (p : Packed) (i : Nat) : Bool := (p.words.getD (i / 64) 0).getLsbD (i % 64)

/-- There are as many words as the bits need. -/
def Sized (p : Packed) : Prop := p.words.length = Limbs.count p.length

/-- There are as many words as the bits need, and the dead bits are clear. -/
structure Canonical (p : Packed) : Prop where
  sized : p.Sized
  dead : ∀ i, p.length ≤ i → p.bit i = false

/-- There are `n` live bits, which `f` tells, in as many words as they need. -/
structure Holds (p : Packed) (n : Nat) (f : Nat → Bool) : Prop where
  length : p.length = n
  sized : p.Sized
  bit : ∀ i < n, p.bit i = f i

/-- The dead bits of `q` are those of `p`. -/
def DeadAs (q p : Packed) : Prop := ∀ i, p.length ≤ i → q.bit i = p.bit i

def limbs (p : Packed) : List Nat := p.words.map BitVec.toNat

def msb (p : Packed) : Bool := p.bit (p.length - 1)

/-- The live bits, least significant first. -/
def live (p : Packed) : List Bool := (List.range p.length).map p.bit

/-- Both have the same live bits. -/
def Same (p q : Packed) : Prop := p.live = q.live

/-- Clears the dead bits, which are in the last word. -/
def clearDead (p : Packed) : Packed :=
  if p.length % 64 = 0 then p
  else { p with words := p.words.modify (p.words.length - 1) (· &&& BitVec.ofNat 64 (2 ^ (p.length % 64) - 1)) }

/-! ## Bits of words -/

theorem bit_of_words_le {p : Packed} {i : Nat} (h : 64 * p.words.length ≤ i) : p.bit i = false := by
  have hnone : p.words[i / 64]? = none := List.getElem?_eq_none (by omega)
  rw [bit, List.getD_eq_getElem?_getD, hnone]
  exact BitVec.getLsbD_zero

/-- The bits determine words of a known number. -/
theorem ext_bit {p q : Packed} (hlength : p.length = q.length) (hwords : p.words.length = q.words.length)
    (h : ∀ i, p.bit i = q.bit i) : p = q := by
  obtain ⟨n, as⟩ := p
  obtain ⟨m, bs⟩ := q
  obtain rfl : n = m := hlength
  suffices heq : as = bs by rw [heq]
  refine List.ext_getElem hwords fun k hk hk' => BitVec.eq_of_getLsbD_eq fun j hj => ?_
  have hword : (64 * k + j) / 64 = k := by omega
  have hplace : (64 * k + j) % 64 = j := by omega
  have hbit := h (64 * k + j)
  simpa only [bit, hword, hplace, List.getD_eq_getElem?_getD, List.getElem?_eq_getElem hk, List.getElem?_eq_getElem hk',
    Option.getD_some] using hbit

/-- Clearing the dead bits leaves the live ones. -/
theorem bit_clearDead {p : Packed} (h : p.Sized) (i : Nat) : p.clearDead.bit i = (decide (i < p.length) && p.bit i) := by
  have hcount : p.words.length = (p.length + 63) / 64 := h
  rw [clearDead]
  split
  · by_cases hi : i < p.length
    · simp [hi]
    · simp [hi, bit_of_words_le (p := p) (i := i) (by omega)]
  · have hmask (j : Nat) : (BitVec.ofNat 64 (2 ^ (p.length % 64) - 1)).getLsbD j = decide (j < p.length % 64) := by
      rw [BitVec.getLsbD_ofNat, Nat.testBit_two_pow_sub_one]
      by_cases hj : j < p.length % 64
      · simp [hj, Nat.lt_trans hj (Nat.mod_lt _ (by decide))]
      · simp [hj]
    simp only [bit, List.getD_eq_getElem?_getD, List.getElem?_modify]
    cases hword : p.words[i / 64]? with
    | none => simp
    | some word =>
      have hi : i / 64 < p.words.length := (List.getElem?_eq_some_iff.1 hword).1
      by_cases hlast : p.words.length - 1 = i / 64
      · have hlive : i % 64 < p.length % 64 ↔ i < p.length := by omega
        simp [hlast, hmask, hlive, Bool.and_comm]
      · have hlive : i < p.length := by omega
        simp [hlast, hlive]

theorem Holds.clearDead {p : Packed} {n : Nat} {f : Nat → Bool} (h : p.Holds n f) :
    p.clearDead.Holds n f ∧ ∀ i, n ≤ i → p.clearDead.bit i = false := by
  have hshape : p.clearDead.length = p.length ∧ p.clearDead.words.length = p.words.length := by
    unfold Packed.clearDead
    split
    · exact ⟨rfl, rfl⟩
    · exact ⟨rfl, List.length_modify ..⟩
  refine ⟨⟨hshape.1.trans h.length, ?_, fun i hi => ?_⟩, fun i hi => ?_⟩
  · rw [Sized, hshape.1, hshape.2]
    exact h.sized
  · rw [bit_clearDead h.sized, h.length, decide_eq_true hi, Bool.true_and, h.bit i hi]
  · rw [bit_clearDead h.sized, h.length, decide_eq_false (by omega), Bool.false_and]

end Packed

/-! ## Storages -/

/-- What a storage of bits can do. -/
structure BitStore where
  /-- drops the bits from a position on -/
  truncate : Packed → Nat → Packed
  /-- drops the bits from a position on, or appends copies of one bit up to it -/
  resize : Packed → Nat → Bool → Packed
  /-- moves the bits away from the lowest position, which zeros move into -/
  shiftUp : Packed → Nat → Packed
  /-- moves the bits towards the lowest position; zeros move in at the other end -/
  shiftDown : Packed → Nat → Packed
  /-- sets the bits from a position on to copies of one bit -/
  fill : Packed → Nat → Bool → Packed
  /-- replaces the bits -/
  copy : Packed → List Bool → Packed

open Packed in
/-- The live bits are what the operations say, and those that work in place keep the dead bits. Where the length changes,
nothing is said of the dead bits. -/
structure BitStore.Lawful (store : BitStore) : Prop where
  truncate {p : Packed} {n : Nat} : p.Sized → n ≤ p.length → (store.truncate p n).Holds n p.bit
  resize {p : Packed} {n : Nat} {b : Bool} : p.Sized →
    (store.resize p n b).Holds n fun i => if i < p.length then p.bit i else b
  shiftUp {p : Packed} {k : Nat} : p.Sized → k < p.length →
    (store.shiftUp p k).Holds p.length (fun i => decide (k ≤ i) && p.bit (i - k)) ∧ (store.shiftUp p k).DeadAs p
  shiftDown {p : Packed} {k : Nat} : p.Sized → k < p.length →
    (store.shiftDown p k).Holds p.length (fun i => decide (i + k < p.length) && p.bit (i + k)) ∧
      (store.shiftDown p k).DeadAs p
  fill {p : Packed} {k : Nat} {b : Bool} : p.Sized → k ≤ p.length →
    (store.fill p k b).Holds p.length (fun i => if k ≤ i then b else p.bit i) ∧ (store.fill p k b).DeadAs p
  copy {p : Packed} {bits : List Bool} : p.Sized → bits.length = p.length →
    (store.copy p bits).Holds p.length (fun i => bits.getD i false) ∧ (store.copy p bits).DeadAs p

/-! ## A storage -/

namespace Packed

/-- So many bits, with the words of another one under them. -/
def overwrite (p : Packed) (n : Nat) (f : Nat → Bool) : Packed :=
  let under (i : Nat) : Bool := if i < n then f i else p.bit i
  let word (k : Nat) : BitVec 64 := (BitVec.ofBoolListLE ((List.range 64).map fun j => under (64 * k + j))).setWidth 64
  ⟨n, (List.range (Limbs.count n)).map word⟩

theorem bit_overwrite (p : Packed) {n : Nat} (f : Nat → Bool) {i : Nat} (h : i < 64 * Limbs.count n) :
    (p.overwrite n f).bit i = if i < n then f i else p.bit i := by
  have hword : i / 64 < Limbs.count n := by omega
  have hplace : i % 64 < 64 := Nat.mod_lt _ (by decide)
  have hsplit : 64 * (i / 64) + i % 64 = i := Nat.div_add_mod i 64
  rw [overwrite, bit, List.getD_eq_getElem?_getD, List.getElem?_map, List.getElem?_range hword, Option.map_some,
    Option.getD_some, BitVec.getLsbD_setWidth, BitVec.getLsbD_ofBoolListLE, List.getD_eq_getElem?_getD, List.getElem?_map,
    List.getElem?_range hplace, Option.map_some, Option.getD_some, decide_eq_true hplace, Bool.true_and, hsplit]

theorem holds_overwrite (p : Packed) (n : Nat) (f : Nat → Bool) : (p.overwrite n f).Holds n f := by
  refine ⟨rfl, by simp [Sized, overwrite], fun i hi => ?_⟩
  rw [bit_overwrite p f (Nat.lt_of_lt_of_le hi (Limbs.le_count n)), if_pos hi]

/-- Other live bits over the same dead ones. -/
theorem overwritten (p : Packed) (h : p.Sized) (f : Nat → Bool) :
    (p.overwrite p.length f).Holds p.length f ∧ (p.overwrite p.length f).DeadAs p := by
  refine ⟨p.holds_overwrite p.length f, fun i hi => ?_⟩
  by_cases hin : i < 64 * Limbs.count p.length
  · rw [bit_overwrite p f hin, if_neg (Nat.not_lt.2 hi)]
  · have hwords : (p.overwrite p.length f).words.length = Limbs.count p.length := (holds_overwrite p p.length f).sized
    rw [bit_of_words_le (by omega), bit_of_words_le (by rw [h]; omega)]

end Packed

namespace BitStore

/-- Writes the live bits over the old words. -/
def plain : BitStore where
  truncate p n := p.overwrite n p.bit
  resize p n b := p.overwrite n fun i => if i < p.length then p.bit i else b
  shiftUp p k := p.overwrite p.length fun i => decide (k ≤ i) && p.bit (i - k)
  shiftDown p k := p.overwrite p.length fun i => decide (i + k < p.length) && p.bit (i + k)
  fill p k b := p.overwrite p.length fun i => if k ≤ i then b else p.bit i
  copy p bits := p.overwrite p.length fun i => bits.getD i false

theorem plain_lawful : plain.Lawful where
  truncate {p n} _ _ := p.holds_overwrite n p.bit
  resize {p n b} _ := p.holds_overwrite n fun i => if i < p.length then p.bit i else b
  shiftUp {p k} h _ := p.overwritten h fun i => decide (k ≤ i) && p.bit (i - k)
  shiftDown {p k} h _ := p.overwritten h fun i => decide (i + k < p.length) && p.bit (i + k)
  fill {p k b} h _ := p.overwritten h fun i => if k ≤ i then b else p.bit i
  copy {p bits} h _ := p.overwritten h fun i => bits.getD i false

end BitStore

end SuperH
