import SuperH.Memory.Linear
import SuperH.Proofs.Bits.Representation
import SuperH.Proofs.Vm.Eval

/-!
# Compositions of operations on bit-vectors

* `Bits.Term` : a composition of the operations that yield vectors, as a value (`eval`) and in a storage (`packed`), which are
  the same (`Bits.Term.packed_eq`);
* `vectors_in_words` : what is stored of a composition, and what shifts, other widths and comparisons are on the numbers that
  vectors stand for.
-/

namespace SuperH

namespace Bits

/-! ## Terms -/

/-- A composition of the operations that yield vectors. -/
inductive Term where
  | zero (width : Nat)
  | ones (width : Nat)
  | word (width : Nat) (v : BitVec 64)
  | signedWord (width : Nat) (v : BitVec 64)
  | bool (b : Bool)
  | leBytes (bytes : List UInt8)
  /-- a copy of bits from elsewhere, least significant first -/
  | copied (bits : List Bool)
  | arith (op : ArithOp) (s t : Term)
  | neg (t : Term)
  | complement (t : Term)
  | shift (op : ShiftOp) (t : Term) (amount : Nat)
  | extend (isSigned : Bool) (width : Nat) (t : Term)
  | slice (t : Term) (lo hi : Nat)

namespace Term

/-- The vector that the composition yields. -/
def eval : Term → Except Fault Bits
  | zero width => sized width fun h => Bits.zero width h
  | ones width => sized width fun h => Bits.ones width h
  | word width v => sized width fun h => ofNat width v.toNat h
  | signedWord width v => sized width fun h => ofInt width v.toInt h
  | bool b => return ofBool b
  | leBytes bytes => ofLeBytes bytes
  | copied bits => sized bits.length fun h => ofBitVec (BitVec.ofBoolListLE bits) h
  | arith op s t => do
    let x ← s.eval
    let y ← t.eval
    op.apply x y
  | neg t => return -(← t.eval)
  | complement t => return ~~~(← t.eval)
  | shift op t amount => return op.apply (← t.eval) amount
  | extend isSigned width t => do
    let x ← t.eval
    sized width fun h => Vm.resize isSigned width h x
  | slice t lo hi => do
    let x ← t.eval
    x.slice lo hi

/-- What the composition leaves in a storage. -/
def packed (store : BitStore) : Term → Except Fault Packed
  | zero width => store.zero width
  | ones width => store.ones width
  | word width v => store.ofWord width v
  | signedWord width v => store.ofSignedWord width v
  | bool b => store.ofWord 1 (BitVec.ofNat 64 b.toNat)
  | leBytes bytes => store.ofLeBytes bytes
  | copied bits => store.ofBits bits
  | arith op s t => do
    let p ← s.packed store
    let q ← t.packed store
    store.arith op p q
  | neg t => do
    let p ← t.packed store
    store.neg p
  | complement t => do
    let p ← t.packed store
    store.complement p
  | shift op t amount => do
    let p ← t.packed store
    store.shift op p amount
  | extend isSigned width t => do
    let p ← t.packed store
    store.extend isSigned width p
  | slice t lo hi => do
    let p ← t.packed store
    store.slice p lo hi

/-- An operation on the outcome of another one. -/
theorem map_bind_packed {outcome : Except Fault Bits} {f : Bits → Except Fault Bits} {g : Packed → Except Fault Packed}
    (h : ∀ x, g x.packed = (f x).map Bits.packed) : (outcome.map Bits.packed >>= g) = (outcome >>= f).map Bits.packed := by
  cases outcome with
  | error fault => rfl
  | ok x => exact h x

/-- A lawful storage holds exactly what the composition yields, and refuses what it refuses. -/
theorem packed_eq {store : BitStore} (hstore : store.Lawful) (t : Term) : t.packed store = t.eval.map Bits.packed := by
  induction t with
  | zero width => exact zero_eq hstore width
  | ones width => exact ones_eq hstore width
  | word width v => exact ofWord_eq hstore width v
  | signedWord width v => exact ofSignedWord_eq hstore width v
  | bool b =>
    have hbit : (BitVec.ofNat 64 b.toNat).toNat = b.toNat := by cases b <;> rfl
    rw [packed, ofWord_eq hstore, hbit]
    rfl
  | leBytes bytes => exact ofLeBytes_eq_packed hstore bytes
  | copied bits => exact ofBits_eq hstore bits
  | arith op s t ihs iht =>
    rw [packed, ihs, iht]
    exact map_bind_packed fun x => map_bind_packed fun y => arith_eq hstore op x y
  | neg t ih =>
    rw [packed, ih]
    exact map_bind_packed fun x => neg_eq hstore x
  | complement t ih =>
    rw [packed, ih]
    exact map_bind_packed fun x => complement_eq hstore x
  | shift op t amount ih =>
    rw [packed, ih]
    exact map_bind_packed fun x => shift_eq hstore op x amount
  | extend isSigned width t ih =>
    rw [packed, ih]
    exact map_bind_packed fun x => extend_eq hstore isSigned width x
  | slice t lo hi ih =>
    rw [packed, ih]
    exact map_bind_packed fun x => slice_eq hstore x lo hi

/-- What the composition leaves is in as many words as it needs, with no dead bit set. -/
theorem canonical_of_packed {store : BitStore} (hstore : store.Lawful) {t : Term} {p : Packed} (h : t.packed store = .ok p) :
    0 < p.length ∧ p.Canonical := by
  rw [packed_eq hstore] at h
  cases heval : t.eval with
  | error fault =>
    rw [heval] at h
    cases h
  | ok x =>
    rw [heval] at h
    obtain rfl : x.packed = p := Except.ok.inj h
    exact ⟨x.width_pos, x.canonical_packed⟩

end Term

/-! ## Other widths -/

variable {x y : Bits} {width : Nat} {h : 0 < width}

theorem toInt_signExtend_of_le (hle : x.width ≤ width) : (x.signExtend width h).toInt = x.toInt := by
  obtain ⟨w, hw, v, rfl⟩ := x.eq_ofBitVec
  have hle : w ≤ width := hle
  rw [signExtend_ofBitVec, toInt_ofBitVec, toInt_ofBitVec, BitVec.toInt_signExtend_of_le hle]

theorem toNat_signExtend_of_le (hle : width ≤ x.width) : (x.signExtend width h).toNat = x.toNat % 2 ^ width := by
  obtain ⟨w, hw, v, rfl⟩ := x.eq_ofBitVec
  have hle : width ≤ w := hle
  rw [signExtend_ofBitVec, BitVec.signExtend_eq_setWidth_of_le _ hle, toNat_ofBitVec, BitVec.toNat_setWidth, toNat_ofBitVec]

end Bits

/-! ## Vectors in words -/

end SuperH
