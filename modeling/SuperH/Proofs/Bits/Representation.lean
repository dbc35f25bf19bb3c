import SuperH.Proofs.Bits.BitVec
import SuperH.Proofs.Bits.LimbArithmetic
import SuperH.Proofs.Bits.Packed
import SuperH.Vm.Exec

/-!
# Bit-vectors in a storage

* `BitStore.fromLimbs`, `BitStore.arith`, `BitStore.shift`, … : the operations on bit-vectors as they work in a storage, word by
  word or through what the storage can do;
* `Bits.packed` : the storage of a vector, which is canonical; `fromLimbs_eq`, `arith_eq`, `shift_eq`, … : on it, each operation
  leaves the storage of what the operation on vectors yields, whatever the storage does with dead bits.
-/

namespace SuperH

/-- What the operation does to the limbs of two vectors of one width. -/
def ArithOp.onLimbs : ArithOp → List Nat → List Nat → List Nat
  | .add => Limbs.add false
  | .sub => Limbs.sub false
  | .mul => Limbs.schoolbook
  | .and => List.zipWith (· &&& ·)
  | .or => List.zipWith (· ||| ·)
  | .xor => List.zipWith (· ^^^ ·)

/-- The operation as it is named where it refuses operands. -/
def ArithOp.name : ArithOp → String
  | .add => "add"
  | .sub => "sub"
  | .mul => "mul"
  | .and => "and"
  | .or => "or"
  | .xor => "xor"

/-! ## Operations in a storage -/

namespace BitStore

variable (store : BitStore)

/-- The low `width` bits of a list of limbs. -/
def fromLimbs (width : Nat) (ls : List Nat) : Except Fault Packed :=
  let n := Limbs.count width
  let words := ((ls ++ List.replicate n 0).take n).map (BitVec.ofNat 64)
  if 0 < width then .ok (store.truncate ⟨64 * n, words⟩ width).clearDead else .error .zeroWidth

def zero (width : Nat) : Except Fault Packed := store.fromLimbs width []

def ones (width : Nat) : Except Fault Packed :=
  store.fromLimbs width (List.replicate (Limbs.count width) (2 ^ 64 - 1))

/-- A word cut or filled up with zeros. -/
def ofWord (width : Nat) (v : BitVec 64) : Except Fault Packed := store.fromLimbs width [v.toNat]

/-- A word cut or filled up with copies of its sign. -/
def ofSignedWord (width : Nat) (v : BitVec 64) : Except Fault Packed :=
  store.fromLimbs width (v.toNat :: List.replicate (Limbs.count width - 1) (if v.msb then 2 ^ 64 - 1 else 0))

def ofLeBytes (bytes : List UInt8) : Except Fault Packed :=
  let width := 8 * bytes.length % 2 ^ 32
  store.fromLimbs width (Limbs.ofBytes (Limbs.count width) bytes)

/-- A copy of bits, least significant first. -/
def ofBits (bits : List Bool) : Except Fault Packed := do
  let p ← store.zero bits.length
  return store.copy p bits

def arith (op : ArithOp) (p q : Packed) : Except Fault Packed :=
  if p.length = q.length then store.fromLimbs p.length (op.onLimbs p.limbs q.limbs) else .error (.widthMismatch op.name)

def neg (p : Packed) : Except Fault Packed := do
  let zero ← store.zero p.length
  store.arith .sub zero p

def complement (p : Packed) : Except Fault Packed := store.fromLimbs p.length (p.limbs.map (2 ^ 64 - 1 - ·))

def shift (op : ShiftOp) (p : Packed) (k : Nat) : Except Fault Packed :=
  if p.length ≤ k then
    match op with
    | .left | .right => store.zero p.length
    | .rightArith => if p.msb then store.ones p.length else store.zero p.length
  else
    match op with
    | .left => return store.shiftUp p k
    | .right => return store.shiftDown p k
    | .rightArith =>
      let out := store.shiftDown p k
      return store.fill out (out.length - k) p.msb

/-- The bits cut or extended to a width. -/
def extend (isSigned : Bool) (width : Nat) (p : Packed) : Except Fault Packed :=
  if isSigned then
    if 0 < width then .ok (store.resize p width p.msb).clearDead else .error .zeroWidth
  else store.fromLimbs width p.limbs

/-- The bits from `lo` up to but without `hi`. -/
def slice (p : Packed) (lo hi : Nat) : Except Fault Packed :=
  if lo ≤ hi ∧ hi ≤ p.length then store.ofBits ((p.live.take hi).drop lo) else .error .outOfRange

end BitStore

/-! ## The storage of a vector -/

namespace Limbs

theorem testBit_value {ls : List Nat} (h : ∀ l ∈ ls, l < 2 ^ 64) (i : Nat) :
    (value ls).testBit i = (ls.getD (i / 64) 0).testBit (i % 64) := by
  induction ls generalizing i with
  | nil => simp [value]
  | cons l ls ih =>
    obtain ⟨hl, hls⟩ := List.forall_mem_cons.1 h
    rw [testBit_value_cons hl]
    split
    · have hzero : i / 64 = 0 := Nat.div_eq_of_lt ‹_›
      rw [hzero, Nat.mod_eq_of_lt ‹_›]
      rfl
    · obtain ⟨k, rfl⟩ := Nat.exists_eq_add_of_le (Nat.le_of_not_lt ‹¬ i < 64›)
      have hnext : (64 + k) / 64 = k / 64 + 1 := by omega
      rw [Nat.add_sub_cancel_left, ih hls, hnext, Nat.add_mod_left]
      rfl

/-- A missing limb is zero. -/
theorem getD_padded {n k : Nat} (h : k < n) (ls : List Nat) :
    ((ls ++ List.replicate n 0).take n).getD k 0 = ls.getD k 0 := by
  rw [List.getD_eq_getElem?_getD, List.getD_eq_getElem?_getD, List.getElem?_take_of_lt h]
  rcases Nat.lt_or_ge k ls.length with hk | hk
  · rw [List.getElem?_append_left hk]
  · have hzero : k - ls.length < n := Nat.lt_of_le_of_lt (Nat.sub_le ..) h
    rw [List.getElem?_append_right hk, List.getElem?_replicate_of_lt hzero, List.getElem?_eq_none hk]
    rfl

end Limbs

/-- The bits of words that are given as numbers. -/
theorem Packed.bit_ofNat (n : Nat) (ls : List Nat) (i : Nat) :
    Packed.bit ⟨n, ls.map (BitVec.ofNat 64)⟩ i = (ls.getD (i / 64) 0).testBit (i % 64) := by
  have hplace : i % 64 < 64 := Nat.mod_lt _ (by decide)
  rw [bit, List.getD_eq_getElem?_getD, List.getElem?_map, List.getD_eq_getElem?_getD]
  cases ls[i / 64]? with
  | none => simp
  | some l => rw [Option.map_some, Option.getD_some, Option.getD_some, BitVec.getLsbD_ofNat, decide_eq_true hplace, Bool.true_and]

namespace Bits

variable {x y : Bits}

def packed (x : Bits) : Packed := ⟨x.width, x.limbs.map (BitVec.ofNat 64)⟩

theorem bit_packed (x : Bits) (i : Nat) : x.packed.bit i = x.toNat.testBit i := by
  rw [packed, Packed.bit_ofNat, ← Limbs.testBit_value x.limb_lt, toNat_eq_value]

theorem limbs_packed (x : Bits) : x.packed.limbs = x.limbs := by
  rw [packed, Packed.limbs, List.map_map]
  refine (List.map_congr_left fun l hl => ?_).trans (List.map_id _)
  exact Nat.mod_eq_of_lt (x.limb_lt l hl)

theorem canonical_packed (x : Bits) : x.packed.Canonical where
  sized := (List.length_map _).trans x.length_limbs
  dead i hi := by
    rw [bit_packed]
    exact Nat.testBit_lt_two_pow (Nat.lt_of_lt_of_le x.toNat_lt (Nat.pow_le_pow_right (by decide) hi))

/-- The live bits are those of the value, and the dead bits are clear. -/
theorem eq_packed {q : Packed} {f : Nat → Bool} (hq : q.Holds y.width f) (hf : ∀ i < y.width, f i = y.toNat.testBit i)
    (hdead : ∀ i, y.width ≤ i → q.bit i = false) : q = y.packed := by
  refine Packed.ext_bit hq.length ?_ fun i => ?_
  · have hsized : q.words.length = Limbs.count q.length := hq.sized
    rw [hsized, hq.length]
    exact y.canonical_packed.sized.symm
  · rcases Nat.lt_or_ge i y.width with hi | hi
    · rw [hq.bit i hi, hf i hi, bit_packed]
    · rw [hdead i hi, y.canonical_packed.dead i hi]

/-- What changes the storage of a vector in place leaves the storage of another one. -/
theorem eq_packed_of_deadAs {q : Packed} {f : Nat → Bool} (hwidth : y.width = x.width)
    (hq : q.Holds x.packed.length f ∧ q.DeadAs x.packed) (hf : ∀ i < x.width, f i = y.toNat.testBit i) : q = y.packed := by
  obtain ⟨hholds, hdead⟩ := hq
  have hlength : x.packed.length = y.width := hwidth.symm
  rw [hlength] at hholds
  refine eq_packed hholds (fun i hi => hf i (hwidth ▸ hi)) fun i hi => ?_
  rw [← hlength] at hi
  rw [hdead i hi, x.canonical_packed.dead i hi]

/-- Vectors are equal iff their live bits are. -/
theorem same_packed_iff : x.packed.Same y.packed ↔ x = y := by
  refine ⟨fun h => ?_, fun h => h ▸ rfl⟩
  have hwidth : x.width = y.width := by simpa [Packed.live, packed] using congrArg List.length h
  have hlive : (List.range x.width).map x.packed.bit = (List.range y.width).map y.packed.bit := h
  rw [hwidth] at hlive
  refine ext_toNat hwidth (Nat.eq_of_testBit_eq fun i => ?_)
  rw [← bit_packed, ← bit_packed]
  rcases Nat.lt_or_ge i y.width with hi | hi
  · exact List.map_inj_left.1 hlive i (List.mem_range.2 hi)
  · rw [x.canonical_packed.dead i (Nat.le_trans (Nat.le_of_eq hwidth) hi), y.canonical_packed.dead i hi]

/-! ## What the operations on vectors yield -/

theorem msb_packed (x : Bits) : x.packed.msb = x.msb := bit_packed ..

theorem sized_of_pos {width : Nat} {build : 0 < width → Bits} (h : 0 < width) : sized width build = .ok (build h) :=
  dif_pos h

theorem toNat_ofInt {width : Nat} {h : 0 < width} (v : Int) : ((ofInt width v h).toNat : Int) = v % 2 ^ width := by
  have hpow : ((2 ^ width : Nat) : Int) = 2 ^ width := Int.natCast_pow 2 _
  have hnonneg : 0 ≤ v % 2 ^ width := Int.emod_nonneg _ (Int.pow_ne_zero (by decide))
  rw [ofInt, toNat_ofNat, Int.natCast_emod, Int.toNat_of_nonneg hnonneg, hpow, Int.emod_emod]

theorem ofLimbs_word {width : Nat} {h : 0 < width} (v : BitVec 64) : ofLimbs width h [v.toNat] = ofNat width v.toNat h := by
  refine ext_toNat rfl ?_
  rw [toNat_ofLimbs (List.forall_mem_singleton.2 v.isLt), toNat_ofNat]
  rfl

theorem lt_of_mem_signedWord (v : BitVec 64) (m : Nat) :
    ∀ l ∈ v.toNat :: List.replicate m (if v.msb then 2 ^ 64 - 1 else 0), l < 2 ^ 64 := by
  refine List.forall_mem_cons.2 ⟨v.isLt, fun l hl => ?_⟩
  rw [List.eq_of_mem_replicate hl]
  split <;> decide

/-- Copies of the sign in the limbs above it make a word a longer two's complement. -/
theorem value_signedWord (v : BitVec 64) (m : Nat) :
    (Limbs.value (v.toNat :: List.replicate m (if v.msb then 2 ^ 64 - 1 else 0)) : Int) =
      v.toInt + 2 ^ (64 * (m + 1)) * v.msb.toInt := by
  have hpos := Nat.two_pow_pos (64 * m)
  have hsplit : (2 : Int) ^ (64 * (m + 1)) = 2 ^ 64 * (2 ^ (64 * m) : Nat) := by
    have hpow : ((2 ^ (64 * (m + 1)) : Nat) : Int) = 2 ^ (64 * (m + 1)) := Int.natCast_pow 2 _
    rw [← hpow, Limbs.two_pow_limbs_succ, Int.natCast_mul]
    rfl
  rw [hsplit, Limbs.value, BitVec.toInt_eq_msb_cond]
  cases v.msb with
  | true =>
    rw [if_pos rfl, if_pos rfl, Limbs.value_replicate, Bool.toInt_true]
    omega
  | false =>
    rw [if_neg Bool.false_ne_true, if_neg Bool.false_ne_true, ← Limbs.digits_zero_right, Limbs.value_digits, Nat.zero_mod,
      Bool.toInt_false]
    omega

theorem ofLimbs_signedWord {width : Nat} {h : 0 < width} (v : BitVec 64) :
    ofLimbs width h (v.toNat :: List.replicate (Limbs.count width - 1) (if v.msb then 2 ^ 64 - 1 else 0)) =
      ofInt width v.toInt h := by
  have hcount : Limbs.count width - 1 + 1 = Limbs.count width := Nat.sub_add_cancel (Limbs.count_pos h)
  obtain ⟨k, hk⟩ := Nat.exists_eq_add_of_le (Limbs.le_count width)
  have hpow : ((2 ^ width : Nat) : Int) = 2 ^ width := Int.natCast_pow 2 _
  refine ext_toNat rfl (Int.ofNat.inj ?_)
  refine (congrArg Int.ofNat (toNat_ofLimbs (lt_of_mem_signedWord v _))).trans ?_
  refine Eq.trans ?_ (toNat_ofInt v.toInt).symm
  refine (Int.natCast_emod _ _).trans ?_
  rw [value_signedWord, hcount, hk, hpow, Int.pow_add, Int.mul_assoc, Int.add_mul_emod_self_left]

/-- The operation is its loop over the limbs, cut to the width. -/
theorem apply_eq_onLimbs (op : ArithOp) : op.apply x y = sameWidth op.name x y (ofLimbs₂ op.onLimbs x y) := by
  cases op with
  | mul =>
    show sameWidth "mul" x y (x * y) = sameWidth "mul" x y _
    by_cases h : x.width = y.width
    · rw [mul_eq_schoolbook h]
      rfl
    · rw [sameWidth, sameWidth, if_neg h, if_neg h]
  | add | sub | and | or | xor => rfl

theorem lt_of_mem_onLimbs (h : x.width = y.width) (op : ArithOp) : ∀ l ∈ op.onLimbs x.limbs y.limbs, l < 2 ^ 64 := by
  have hzip {f : Nat → Nat → Nat} {g : Bool → Bool → Bool} (hf : ∀ a b i, (f a b).testBit i = g (a.testBit i) (b.testBit i))
      (hg : g false false = false) : ∀ l ∈ List.zipWith f x.limbs y.limbs, l < 2 ^ 64 :=
    (Limbs.value_zipWith hf hg (length_limbs_eq h) x.limb_lt y.limb_lt).2
  cases op with
  | add => exact Limbs.lt_of_mem_add
  | sub => exact Limbs.lt_of_mem_sub
  | mul => exact Limbs.lt_of_mem_schoolbook
  | and => exact hzip Nat.testBit_and rfl
  | or => exact hzip Nat.testBit_or rfl
  | xor => exact hzip Nat.testBit_xor rfl

theorem testBit_ashr {k i : Nat} (hi : i < x.width) :
    (x.ashr k).toNat.testBit i = if i + k < x.width then x.toNat.testBit (i + k) else x.msb := by
  obtain ⟨w, h, v, rfl⟩ := x.eq_ofBitVec
  have hlive : i < w := hi
  rw [ashr_ofBitVec, toNat_ofBitVec, toNat_ofBitVec, msb_ofBitVec, width_ofBitVec, BitVec.testBit_toNat, BitVec.testBit_toNat,
    BitVec.getLsbD_sshiftRight, decide_eq_false (Nat.not_le.2 hlive), Bool.not_false, Bool.true_and, Nat.add_comm]

theorem testBit_signExtend {width i : Nat} {h : 0 < width} (hi : i < width) :
    (x.signExtend width h).toNat.testBit i = if i < x.width then x.toNat.testBit i else x.msb := by
  obtain ⟨w, hw, v, rfl⟩ := x.eq_ofBitVec
  rw [signExtend_ofBitVec, toNat_ofBitVec, toNat_ofBitVec, msb_ofBitVec, width_ofBitVec, BitVec.testBit_toNat,
    BitVec.testBit_toNat, BitVec.getLsbD_signExtend, decide_eq_true hi, Bool.true_and]

/-! ## Each operation -/

section

variable {store : BitStore} (hstore : store.Lawful)

include hstore

theorem fromLimbs_of_pos {width : Nat} (h : 0 < width) {ls : List Nat} (hls : ∀ l ∈ ls, l < 2 ^ 64) :
    store.fromLimbs width ls = .ok (ofLimbs width h ls).packed := by
  let n := Limbs.count width
  let start : Packed := ⟨64 * n, ((ls ++ List.replicate n 0).take n).map (BitVec.ofNat 64)⟩
  have hle : width ≤ 64 * n := Limbs.le_count width
  have hstart : start.Sized := by
    show (((ls ++ List.replicate n 0).take n).map (BitVec.ofNat 64)).length = Limbs.count (64 * n)
    rw [List.length_map, List.length_take, List.length_append, List.length_replicate, Limbs.count]
    omega
  obtain ⟨hholds, hdead⟩ := (hstore.truncate hstart hle).clearDead
  rw [BitStore.fromLimbs, if_pos h]
  refine congrArg Except.ok (eq_packed hholds (fun i hi => ?_) hdead)
  have hlive : i < width := hi
  have hword : i / 64 < n := by omega
  rw [toNat_ofLimbs hls, Nat.testBit_mod_two_pow, decide_eq_true hlive, Bool.true_and, Limbs.testBit_value hls,
    Packed.bit_ofNat, Limbs.getD_padded hword]

theorem fromLimbs_eq {width : Nat} {ls : List Nat} (hls : ∀ l ∈ ls, l < 2 ^ 64) :
    store.fromLimbs width ls = (sized width fun h => ofLimbs width h ls).map packed := by
  by_cases h : 0 < width
  · rw [fromLimbs_of_pos hstore h hls, sized_of_pos h]
    rfl
  · rw [BitStore.fromLimbs, if_neg h, sized, dif_neg h]
    rfl

theorem zero_of_pos {width : Nat} (h : 0 < width) : store.zero width = .ok (Bits.zero width h).packed :=
  fromLimbs_of_pos hstore h nofun

theorem zero_eq (width : Nat) : store.zero width = (sized width fun h => Bits.zero width h).map packed :=
  fromLimbs_eq hstore nofun

theorem ones_of_pos {width : Nat} (h : 0 < width) : store.ones width = .ok (Bits.ones width h).packed :=
  fromLimbs_of_pos hstore h Limbs.lt_of_mem_ones

theorem ones_eq (width : Nat) : store.ones width = (sized width fun h => Bits.ones width h).map packed :=
  fromLimbs_eq hstore Limbs.lt_of_mem_ones

theorem ofWord_eq (width : Nat) (v : BitVec 64) :
    store.ofWord width v = (sized width fun h => Bits.ofNat width v.toNat h).map packed := by
  simp only [← ofLimbs_word]
  exact fromLimbs_eq hstore (List.forall_mem_singleton.2 v.isLt)

theorem ofSignedWord_eq (width : Nat) (v : BitVec 64) :
    store.ofSignedWord width v = (sized width fun h => Bits.ofInt width v.toInt h).map packed := by
  simp only [← ofLimbs_signedWord]
  exact fromLimbs_eq hstore (lt_of_mem_signedWord v _)

theorem ofLeBytes_eq_packed (bytes : List UInt8) : store.ofLeBytes bytes = (Bits.ofLeBytes bytes).map packed :=
  fromLimbs_eq hstore Limbs.lt_of_mem_ofBytes

theorem arith_eq (op : ArithOp) (x y : Bits) : store.arith op x.packed y.packed = (op.apply x y).map packed := by
  rw [apply_eq_onLimbs, BitStore.arith, sameWidth, limbs_packed, limbs_packed]
  by_cases h : x.width = y.width
  · rw [if_pos h, if_pos (show x.packed.length = y.packed.length from h)]
    exact fromLimbs_of_pos hstore x.width_pos (lt_of_mem_onLimbs h op)
  · rw [if_neg h, if_neg (show ¬ x.packed.length = y.packed.length from h)]
    rfl

theorem neg_eq (x : Bits) : store.neg x.packed = .ok (-x).packed := by
  have hzero : store.zero x.packed.length = .ok (Bits.zero x.width x.width_pos).packed := zero_of_pos hstore x.width_pos
  have hsub : ArithOp.sub.apply (Bits.zero x.width x.width_pos) x = .ok (-x) := sameWidth_eq rfl _
  rw [BitStore.neg, hzero]
  refine (arith_eq hstore .sub _ x).trans ?_
  rw [hsub]
  rfl

theorem complement_eq (x : Bits) : store.complement x.packed = .ok (~~~x).packed := by
  have hlimbs : ∀ l ∈ x.limbs.map (2 ^ 64 - 1 - ·), l < 2 ^ 64 := by
    intro l hl
    obtain ⟨a, -, rfl⟩ := List.mem_map.1 hl
    exact Nat.lt_of_le_of_lt (Nat.sub_le ..) (by decide)
  rw [BitStore.complement, limbs_packed]
  exact fromLimbs_of_pos hstore x.width_pos hlimbs

/-! ## Shifts -/

theorem shiftUp_eq {x : Bits} {k : Nat} (hk : k < x.width) : store.shiftUp x.packed k = (x.shl k).packed := by
  refine eq_packed_of_deadAs width_shl (hstore.shiftUp x.canonical_packed.sized hk) fun i hi => ?_
  rw [bit_packed, toNat_shl, Nat.testBit_mod_two_pow, decide_eq_true hi, Bool.true_and, Nat.testBit_shiftLeft]

theorem shiftDown_eq {x : Bits} {k : Nat} (hk : k < x.width) : store.shiftDown x.packed k = (x.lshr k).packed := by
  refine eq_packed_of_deadAs width_lshr (hstore.shiftDown x.canonical_packed.sized hk) fun i _ => ?_
  rw [toNat_lshr, Nat.testBit_shiftRight, Nat.add_comm k]
  rcases Nat.lt_or_ge (i + k) x.packed.length with hlt | hge
  · rw [decide_eq_true hlt, Bool.true_and, bit_packed]
  · rw [← bit_packed, x.canonical_packed.dead _ hge, Bool.and_false]

theorem fill_shiftDown_eq {x : Bits} {k : Nat} (hk : k < x.width) :
    store.fill (x.lshr k).packed (x.width - k) x.msb = (x.ashr k).packed := by
  have hle : x.width - k ≤ (x.lshr k).packed.length := Nat.le_trans (Nat.sub_le ..) (Nat.le_of_eq width_lshr.symm)
  refine eq_packed_of_deadAs (width_ashr.trans width_lshr.symm) (hstore.fill (x.lshr k).canonical_packed.sized hle) fun i hi => ?_
  rw [width_lshr] at hi
  rw [testBit_ashr hi, bit_packed, toNat_lshr, Nat.testBit_shiftRight, Nat.add_comm k]
  by_cases hin : i + k < x.width
  · rw [if_pos hin, if_neg (by omega)]
  · rw [if_neg hin, if_pos (by omega)]

theorem shift_eq (op : ShiftOp) (x : Bits) (k : Nat) : store.shift op x.packed k = .ok (op.apply x k).packed := by
  have hzero : store.zero x.packed.length = .ok (Bits.zero x.width x.width_pos).packed := zero_of_pos hstore x.width_pos
  have hones : store.ones x.packed.length = .ok (Bits.ones x.width x.width_pos).packed := ones_of_pos hstore x.width_pos
  unfold BitStore.shift
  rw [msb_packed]
  by_cases hk : x.width ≤ k
  · rw [if_pos (show x.packed.length ≤ k from hk)]
    cases op with
    | left | right =>
      simp only [ShiftOp.apply, shl, lshr, if_pos hk]
      exact hzero
    | rightArith =>
      simp only [ShiftOp.apply, ashr, if_pos hk]
      split
      · exact hones
      · exact hzero
  · have hlt : k < x.width := Nat.lt_of_not_le hk
    rw [if_neg (show ¬ x.packed.length ≤ k from hk)]
    cases op with
    | left => exact congrArg Except.ok (shiftUp_eq hstore hlt)
    | right => exact congrArg Except.ok (shiftDown_eq hstore hlt)
    | rightArith =>
      have hlength : (x.lshr k).packed.length = x.width := width_lshr
      show Except.ok (store.fill (store.shiftDown x.packed k) ((store.shiftDown x.packed k).length - k) x.msb) = _
      rw [shiftDown_eq hstore hlt, hlength, fill_shiftDown_eq hstore hlt]
      rfl

/-! ## Other widths -/

theorem extend_eq (isSigned : Bool) (width : Nat) (x : Bits) :
    store.extend isSigned width x.packed = (sized width fun h => Vm.resize isSigned width h x).map packed := by
  cases isSigned with
  | false =>
    rw [BitStore.extend, limbs_packed]
    exact fromLimbs_eq hstore x.limb_lt
  | true =>
    rw [BitStore.extend, msb_packed]
    by_cases h : 0 < width
    · obtain ⟨hholds, hdead⟩ := (hstore.resize (n := width) (b := x.msb) x.canonical_packed.sized).clearDead
      have hpacked := eq_packed (y := x.signExtend width h) hholds (fun i hi => ?_) hdead
      · rw [if_pos h, sized_of_pos h, hpacked]
        rfl
      · have hlive : i < width := hi
        rw [testBit_signExtend hlive, bit_packed]
        rfl
    · rw [if_neg h, sized, dif_neg h]
      rfl

theorem ofBits_of_pos {bits : List Bool} (hlen : bits.length = y.width)
    (hbits : ∀ i < y.width, bits.getD i false = y.toNat.testBit i) : store.ofBits bits = .ok y.packed := by
  let zero := Bits.zero y.width y.width_pos
  have hzero : store.zero bits.length = .ok zero.packed := by
    rw [hlen]
    exact zero_of_pos hstore y.width_pos
  rw [BitStore.ofBits, hzero]
  exact congrArg Except.ok (eq_packed_of_deadAs (x := zero) rfl (hstore.copy zero.canonical_packed.sized hlen) hbits)

theorem ofBits_eq (bits : List Bool) :
    store.ofBits bits = (sized bits.length fun h => ofBitVec (BitVec.ofBoolListLE bits) h).map packed := by
  by_cases h : 0 < bits.length
  · rw [sized_of_pos h]
    refine ofBits_of_pos hstore rfl fun i _ => ?_
    rw [toNat_ofBitVec, BitVec.testBit_toNat, BitVec.getLsbD_ofBoolListLE]
  · rw [BitStore.ofBits, zero_eq hstore, sized, sized, dif_neg h, dif_neg h]
    rfl

theorem slice_eq (x : Bits) (lo hi : Nat) : store.slice x.packed lo hi = (x.slice lo hi).map packed := by
  rw [BitStore.slice, Bits.slice]
  by_cases hrange : lo ≤ hi ∧ hi ≤ x.width
  · rw [if_pos hrange, if_pos (show lo ≤ hi ∧ hi ≤ x.packed.length from hrange)]
    obtain ⟨hlo, hhi⟩ := hrange
    have hlen : ((x.packed.live.take hi).drop lo).length = hi - lo := by
      have hlive : x.packed.live.length = x.width := by simp [Packed.live, packed]
      rw [List.length_drop, List.length_take, hlive, Nat.min_eq_left hhi]
    by_cases h : 0 < hi - lo
    · rw [sized_of_pos h]
      refine ofBits_of_pos hstore hlen fun i hin => ?_
      have hin : i < hi - lo := hin
      have hhigh : lo + i < hi := by omega
      have hlive : lo + i < x.packed.length := Nat.lt_of_lt_of_le hhigh hhi
      rw [toNat_ofNat, Nat.testBit_mod_two_pow, decide_eq_true hin, Bool.true_and,
        Nat.testBit_shiftRight, ← bit_packed, List.getD_eq_getElem?_getD, List.getElem?_drop, List.getElem?_take_of_lt hhigh,
        Packed.live, List.getElem?_map, List.getElem?_range hlive]
      rfl
    · rw [BitStore.ofBits, zero_eq hstore, hlen, sized, sized, dif_neg h, dif_neg h]
      rfl
  · rw [if_neg hrange, if_neg (show ¬ (lo ≤ hi ∧ hi ≤ x.packed.length) from hrange)]
    rfl

end

end Bits

end SuperH
