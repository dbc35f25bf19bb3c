import SuperH.Proofs.Vm.Write

/-!
# Accesses to linear memory

The interpreter loads and stores byte by byte and orders the bytes itself. An access of the bus takes its bytes at once, and
the memory orders them.

* `LinearMemory.Covers` : all bytes of a range are the memory's, which is what either access needs;
* `LinearMemory.ChangedWithin` : all bytes outside of a range have stayed;
* `Bus.read`, `Bus.write` : the accesses of the bus by their size; `LinearMemory.read_eq`, `LinearMemory.write_eq` are what they
  do;
* `Vm.writeBytes_eq_patched` : bytes written one by one are the image that an access of the bus copies;
* `memory_accesses` : loads and stores succeed if the memory covers them, and do what the bus does.
-/

namespace SuperH

namespace Bus

/-- The sizes of an access. -/
inductive Size where
  | byte | word | long
  deriving DecidableEq

def Size.bytes : Size → Nat
  | .byte => 1
  | .word => 2
  | .long => 4

theorem Size.bytes_pos (size : Size) : 0 < size.bytes := by cases size <;> decide

theorem Size.bits_pos (size : Size) : 0 < size.bytes * 8 := Nat.mul_pos size.bytes_pos (by decide)

theorem Size.bits_lt (size : Size) : size.bytes * 8 < 2 ^ 32 := by cases size <;> decide

variable {σ : Type} [Bus σ]

def read (addr : Address) : (size : Size) → EStateM BusError σ (BitVec (size.bytes * 8))
  | .byte => return (← read8 addr).toBitVec
  | .word => return (← read16 addr).toBitVec
  | .long => return (← read32 addr).toBitVec

def write (addr : Address) : (size : Size) → BitVec (size.bytes * 8) → EStateM BusError σ Unit
  | .byte, v => write8 addr ⟨v⟩
  | .word, v => write16 addr ⟨v⟩
  | .long, v => write32 addr ⟨v⟩

/-- Nothing wraps below the last address. -/
theorem toNat_add_ofNat {addr : Address} {i : Nat} (h : addr.toNat + i < 2 ^ 32) :
    (addr + BitVec.ofNat 32 i).toNat = addr.toNat + i := by
  rw [BitVec.toNat_add, BitVec.toNat_ofNat]
  omega

end Bus

namespace LinearMemory

variable {mem mem' : LinearMemory} {addr : Address} {n : Nat}

/-! ## Ranges of bytes -/

/-- All bytes from an address on are the memory's. -/
def Covers (mem : LinearMemory) (addr : Address) (n : Nat) : Prop :=
  ∀ i < n, mem.base.toNat ≤ addr.toNat + i ∧ addr.toNat + i < mem.base.toNat + mem.bytes.size

instance : Decidable (mem.Covers addr n) := inferInstanceAs (Decidable (∀ i < n, _))

/-- The memories are alike but for the values of the bytes of a range. -/
structure ChangedWithin (mem : LinearMemory) (addr : Address) (n : Nat) (mem' : LinearMemory) : Prop where
  base : mem'.base = mem.base
  bigEndian : mem'.bigEndian = mem.bigEndian
  size : mem'.bytes.size = mem.bytes.size
  byte : ∀ i, mem.base.toNat + i < addr.toNat ∨ addr.toNat + n ≤ mem.base.toNat + i → mem'.bytes[i]? = mem.bytes[i]?

theorem Covers.offset_byte (h : mem.Covers addr n) (hroom : addr.toNat + n ≤ 2 ^ 32) {i : Nat} (hi : i < n) :
    mem.offset (addr + BitVec.ofNat 32 i) 1 = .ok (addr.toNat - mem.base.toNat + i) := by
  have hbase := (h 0 (Nat.zero_lt_of_lt hi)).1
  have hlimit := (h i hi).2
  rw [offset_eq_ok, Bus.toNat_add_ofNat (by omega)]
  omega

/-- The bytes that the interpreter accesses one by one. -/
theorem covers_iff_mapped (hroom : addr.toNat + n ≤ 2 ^ 32) :
    mem.Covers addr n ↔ ∀ i < n, Bus.Mapped mem (addr + BitVec.ofNat 32 i) := by
  constructor
  · exact fun h i hi => mapped_iff.2 ⟨_, h.offset_byte hroom hi⟩
  · intro h i hi
    obtain ⟨off, hoff⟩ := mapped_iff.1 (h i hi)
    rw [offset_eq_ok, Bus.toNat_add_ofNat (by omega)] at hoff
    omega

/-- The bytes that the bus accesses at once. -/
theorem covers_iff_offset (hn : 0 < n) : mem.Covers addr n ↔ mem.offset addr n = .ok (addr.toNat - mem.base.toNat) := by
  rw [offset_eq_ok]
  constructor
  · intro h
    have hfirst := h 0 hn
    have hlast := h (n - 1) (by omega)
    omega
  · intro h i hi
    omega

theorem exists_offset_error (h : ¬ mem.Covers addr n) (hn : 0 < n) : ∃ cause, mem.offset addr n = .error cause := by
  cases hoffset : mem.offset addr n with
  | error cause => exact ⟨cause, rfl⟩
  | ok off =>
    refine absurd ((covers_iff_offset hn).2 ?_) h
    rw [hoffset, (offset_eq_ok.1 hoffset).2.1]

/-- Bytes read one by one are the piece of the memory that an access of the bus copies. -/
theorem Covers.bytesAt_eq (h : mem.Covers addr n) (hroom : addr.toNat + n ≤ 2 ^ 32) :
    Bus.bytesAt mem addr n =
      (mem.bytes.extract (addr.toNat - mem.base.toNat) (addr.toNat - mem.base.toNat + n)).toList := by
  have hfits : 0 < n → addr.toNat - mem.base.toNat + n ≤ mem.bytes.size := fun hn =>
    (offset_eq_ok.1 ((covers_iff_offset hn).1 h)).2.2
  refine List.ext_getElem ?_ fun i hi hi' => ?_
  · rw [Bus.length_bytesAt, Array.length_toList, Array.size_extract]
    omega
  · rw [Bus.length_bytesAt] at hi
    have hbyte : Bus.byteAt mem (addr + BitVec.ofNat 32 i) = mem.bytes[addr.toNat - mem.base.toNat + i]?.getD 0 := by
      rw [byteAt_eq, h.offset_byte hroom hi]
    have hlt : addr.toNat - mem.base.toNat + i < mem.bytes.size := by
      have := hfits (Nat.zero_lt_of_lt hi)
      omega
    simp only [Bus.bytesAt, List.getElem_map, List.getElem_range, hbyte, Array.getElem_toList, Array.getElem_extract,
      Array.getElem?_eq_getElem hlt, Option.getD_some]

/-! ## Accesses of the bus -/

/-- The bytes that are read make a number, and this a word. -/
theorem reading_eq {α : Type} (f : Nat → α) (g : α → BitVec (n * 8)) (hfg : ∀ v, g (f v) = BitVec.ofNat _ v)
    (mem : LinearMemory) (addr : Address) :
    (do return g (← reading fun mem => return f (ofLeBytes (← mem.readBytes addr n))) :
        EStateM BusError LinearMemory (BitVec (n * 8))) mem = match mem.offset addr n with
      | .ok off => .ok (BitVec.ofNat _ (ofLeBytes (mem.ordered (mem.bytes.extract off (off + n)).toList))) mem
      | .error cause => .error cause mem := by
  cases hoffset : mem.offset addr n with
  | ok off =>
    have hread : mem.readBytes addr n = .ok (mem.ordered (mem.bytes.extract off (off + n)).toList) := by
      rw [readBytes, hoffset]
      rfl
    refine (bind_of_ok ?_).trans (congrArg (EStateM.Result.ok · mem) (hfg _))
    unfold reading
    dsimp only
    rw [hread]
    rfl
  | error cause =>
    have hread : mem.readBytes addr n = .error cause := by
      rw [readBytes, hoffset]
      rfl
    refine bind_of_error ?_
    unfold reading
    dsimp only
    rw [hread]
    rfl

theorem writeBytes_eq (addr : Address) (bytes : List UInt8) (mem : LinearMemory) :
    writeBytes addr bytes mem = match mem.offset addr bytes.length with
      | .ok off => .ok () (mem.patched off (mem.ordered bytes))
      | .error cause => .error cause mem := by
  have hlength : (mem.ordered bytes).length = bytes.length := by
    unfold ordered
    split
    · exact List.length_reverse
    · rfl
  show writing addr (mem.ordered bytes) mem = _
  unfold writing
  cases hoffset : mem.offset addr bytes.length with
  | ok off => rw [hlength, hoffset]
  | error cause => rw [hlength, hoffset]

theorem read_eq (mem : LinearMemory) (addr : Address) (size : Bus.Size) :
    Bus.read addr size mem = match mem.offset addr size.bytes with
      | .ok off => .ok (BitVec.ofNat _ (ofLeBytes (mem.ordered (mem.bytes.extract off (off + size.bytes)).toList))) mem
      | .error cause => .error cause mem := by
  cases size with
  | byte => exact reading_eq (n := 1) UInt8.ofNat UInt8.toBitVec (fun _ => rfl) mem addr
  | word => exact reading_eq (n := 2) UInt16.ofNat UInt16.toBitVec (fun _ => rfl) mem addr
  | long => exact reading_eq (n := 4) UInt32.ofNat UInt32.toBitVec (fun _ => rfl) mem addr

theorem write_eq (mem : LinearMemory) (addr : Address) (size : Bus.Size) (v : BitVec (size.bytes * 8)) :
    Bus.write addr size v mem = match mem.offset addr size.bytes with
      | .ok off => .ok () (mem.patched off (mem.ordered (leBytes size.bytes v.toNat)))
      | .error cause => .error cause mem := by
  cases size with
  | byte =>
    have hbyte : leBytes 1 v.toNat = [⟨v⟩] := congrArg (fun b => [UInt8.ofBitVec b]) (BitVec.ofNat_toNat ..)
    exact hbyte ▸ writeBytes_eq addr [⟨v⟩] mem
  | word => exact writeBytes_eq addr (leBytes 2 v.toNat) mem
  | long => exact writeBytes_eq addr (leBytes 4 v.toNat) mem

theorem Covers.read_eq {size : Bus.Size} (h : mem.Covers addr size.bytes) (hroom : addr.toNat + size.bytes ≤ 2 ^ 32) :
    Bus.read addr size mem = .ok (Bus.element mem mem.bigEndian size.bytes addr) mem := by
  rw [LinearMemory.read_eq, (covers_iff_offset size.bytes_pos).1 h, Bus.element, h.bytesAt_eq hroom]
  rfl

theorem covers_iff_read {size : Bus.Size} :
    mem.Covers addr size.bytes ↔ ∃ w mem', Bus.read addr size mem = .ok w mem' := by
  constructor
  · intro h
    rw [LinearMemory.read_eq, (covers_iff_offset size.bytes_pos).1 h]
    exact ⟨_, _, rfl⟩
  · rintro ⟨w, mem', hread⟩
    refine Classical.byContradiction fun h => ?_
    obtain ⟨cause, hcause⟩ := exists_offset_error h size.bytes_pos
    rw [LinearMemory.read_eq, hcause] at hread
    cases hread

/-! ## Bytes outside of a store -/

theorem getElem?_patch_of_outside {bytes : Array UInt8} {off : Nat} {image : List UInt8} {i : Nat}
    (h : i < off ∨ off + image.length ≤ i) : (patch bytes off image)[i]? = bytes[i]? := by
  induction image generalizing bytes off with
  | nil => rfl
  | cons b image ih =>
    rw [List.length_cons] at h
    rw [patch, ih (by omega), Array.getElem?_setIfInBounds_ne (by omega)]

theorem changedWithin_patched (hbase : mem.base.toNat ≤ addr.toNat) (image : List UInt8) :
    mem.ChangedWithin addr image.length (mem.patched (addr.toNat - mem.base.toNat) image) where
  base := rfl
  bigEndian := rfl
  size := size_patch ..
  byte i hi := getElem?_patch_of_outside (by omega)

end LinearMemory

namespace Vm

variable {config : VmConfig} {mem mem' : LinearMemory} {addr : Address} {bytes : List UInt8} {n : Nat}

/-! ## Accesses of the interpreter -/

theorem covers_iff_load (config : VmConfig) (hn : 0 < n * 8) (hlt : n * 8 < 2 ^ 32) (hroom : addr.toNat + n ≤ 2 ^ 32) :
    mem.Covers addr n ↔ ∃ v mem', load config addr (n * 8) mem = .ok v mem' := by
  rw [LinearMemory.covers_iff_mapped hroom]
  constructor
  · exact fun h => ⟨_, mem, load_eq config hn hlt h⟩
  · rintro ⟨v, mem', hload⟩
    refine Classical.byContradiction fun h => ?_
    obtain ⟨k, hk, hbefore, cause, hcause⟩ := (LinearMemory.steady mem).exists_first addr h
    cases (load_error config hk hbefore hcause).symm.trans hload

/-- Bytes that are written one by one make one image. The address after the last byte may wrap around, so the room is asked for
byte by byte. -/
theorem writeBytes_eq_patched {off : Nat}
    (h : ∀ i < bytes.length, mem.offset (addr + BitVec.ofNat 32 i) 1 = .ok (off + i)) :
    writeBytes addr bytes mem = .ok () (mem.patched off bytes) := by
  induction bytes generalizing addr off mem with
  | nil => rfl
  | cons b bytes ih =>
    have hfirst := h 0 (Nat.succ_pos _)
    rw [BitVec.add_zero, Nat.add_zero] at hfirst
    have hwrite : writeByte addr b mem = .ok () (mem.patched off [b]) := by rw [writeByte_eq, hfirst]
    have hrest : ∀ i < bytes.length, (mem.patched off [b]).offset (addr + 1 + BitVec.ofNat 32 i) 1 = .ok (off + 1 + i) := by
      intro i hi
      rw [LinearMemory.offset_patched, Bus.add_one_add, h (i + 1) (Nat.succ_lt_succ hi), Nat.add_right_comm, Nat.add_assoc]
    exact (bind_of_ok hwrite).trans (ih hrest)

theorem mapped_of_writeBytes (h : writeBytes addr bytes mem = .ok () mem') {i : Nat} (hi : i < bytes.length) :
    Bus.Mapped mem (addr + BitVec.ofNat 32 i) := by
  induction bytes generalizing addr mem i with
  | nil => cases hi
  | cons b bytes ih =>
    have hfirst := writeByte_eq addr b mem
    cases hoff : mem.offset addr 1 with
    | error cause =>
      rw [hoff] at hfirst
      cases (bind_of_error hfirst).symm.trans h
    | ok off =>
      rw [hoff] at hfirst
      have hrest := (bind_of_ok hfirst).symm.trans h
      cases i with
      | zero =>
        rw [BitVec.add_zero, LinearMemory.mapped_iff]
        exact ⟨off, hoff⟩
      | succ i =>
        have hmapped := ih hrest (Nat.lt_of_succ_lt_succ hi)
        rwa [LinearMemory.mapped_iff, LinearMemory.offset_patched, ← LinearMemory.mapped_iff, Bus.add_one_add] at hmapped

/-- A store to a range that the memory covers copies one image. -/
theorem store_eq_patched (config : VmConfig) (v : BitVec (n * 8)) (hn : 0 < n * 8) (h : mem.Covers addr n)
    (hroom : addr.toNat + n ≤ 2 ^ 32) : store config addr (.ofBitVec v hn) mem =
      .ok () (mem.patched (addr.toNat - mem.base.toNat) (ordered config (leBytes n v.toNat))) := by
  have hlength := length_ordered_leBytes config n v.toNat
  rw [store_ofBitVec]
  refine writeBytes_eq_patched fun i hi => h.offset_byte hroom ?_
  rwa [hlength] at hi

theorem covers_iff_store (config : VmConfig) {v : BitVec (n * 8)} (hn : 0 < n * 8) (hroom : addr.toNat + n ≤ 2 ^ 32) :
    mem.Covers addr n ↔ ∃ mem', store config addr (.ofBitVec v hn) mem = .ok () mem' := by
  have hlength := length_ordered_leBytes config n v.toNat
  constructor
  · exact fun h => ⟨_, store_eq_patched config v hn h hroom⟩
  · rintro ⟨mem', hstore⟩
    rw [store_ofBitVec] at hstore
    exact (LinearMemory.covers_iff_mapped hroom).2 fun i hi => mapped_of_writeBytes hstore (hlength.symm ▸ hi)

section

variable {v : BitVec (n * 8)} {hn : 0 < n * 8} (hroom : addr.toNat + n ≤ 2 ^ 32)
  (h : store config addr (.ofBitVec v hn) mem = .ok () mem')

include hroom h

theorem changedWithin_of_store : mem.ChangedWithin addr n mem' := by
  have hcovers : mem.Covers addr n := (covers_iff_store config hn hroom).2 ⟨mem', h⟩
  have hlength := length_ordered_leBytes config n v.toNat
  have hbase : mem.base.toNat ≤ addr.toNat := (hcovers 0 (by omega)).1
  have hchange := LinearMemory.changedWithin_patched hbase (ordered config (leBytes n v.toNat))
  cases h.symm.trans (store_eq_patched config v hn hcovers hroom)
  rwa [hlength] at hchange

/-- What was stored is loaded. -/
theorem load_of_store (hlt : n * 8 < 2 ^ 32) : load config addr (n * 8) mem' = .ok (.ofBitVec v hn) mem' := by
  have hmapped := (LinearMemory.covers_iff_mapped hroom).1 ((covers_iff_store config hn hroom).2 ⟨mem', h⟩)
  obtain ⟨mem₁, hstore, hchange, helement⟩ := store_eq config hn (by omega) hmapped
  cases h.symm.trans hstore
  rw [load_eq config hn hlt fun i hi => (hchange.mapped _).2 (hmapped i hi), helement]

end

/-! ## Accesses of the bus by the interpreter's ones -/

section

variable {size : Bus.Size} (horder : config.bigEndian = mem.bigEndian) (hroom : addr.toNat + size.bytes ≤ 2 ^ 32)

include horder hroom

/-- The number that the bus reads is the one that is loaded. -/
theorem load_of_read {w : BitVec (size.bytes * 8)} (h : Bus.read addr size mem = .ok w mem') :
    load config addr (size.bytes * 8) mem = .ok (.ofBitVec w size.bits_pos) mem' := by
  have hcovers := LinearMemory.covers_iff_read.2 ⟨w, mem', h⟩
  cases h.symm.trans (hcovers.read_eq hroom)
  rw [load_eq config size.bits_pos size.bits_lt ((LinearMemory.covers_iff_mapped hroom).1 hcovers), horder]

/-- A store and a write of the bus lead to the same memory. -/
theorem store_iff_write (v : BitVec (size.bytes * 8)) :
    store config addr (.ofBitVec v size.bits_pos) mem = .ok () mem' ↔ Bus.write addr size v mem = .ok () mem' := by
  have hordered : ordered config = mem.ordered := by
    funext bytes
    rw [ordered, LinearMemory.ordered, horder]
  rw [LinearMemory.write_eq]
  by_cases hcovers : mem.Covers addr size.bytes
  · rw [store_eq_patched config v size.bits_pos hcovers hroom, (LinearMemory.covers_iff_offset size.bytes_pos).1 hcovers,
      hordered]
    simp only [EStateM.Result.ok.injEq]
  · obtain ⟨cause, hcause⟩ := LinearMemory.exists_offset_error hcovers size.bytes_pos
    rw [hcause]
    exact ⟨fun hstore => absurd ((covers_iff_store config size.bits_pos hroom).2 ⟨mem', hstore⟩) hcovers, nofun⟩

end

/-! ## Expressions and effects -/

variable {vm : Vm} {a : Expr} (hkeys : vm.config.memKeyBits = 32)
  (ha : vm.eval a mem = .ok (.bits (.ofBitVec addr Expr.word_pos)) mem)

include hkeys ha

theorem eval_load_eq_ok {bits : Nat} (hbits : bits < 2 ^ 32) {x : Value} :
    vm.eval (.load bits a) mem = .ok x mem' ↔ ∃ v, x = .bits v ∧ load vm.config addr bits mem = .ok v mem' := by
  rw [eval_load hkeys ha hbits]
  cases hload : load vm.config addr bits mem with
  | ok v mem₁ =>
    rw [bind_of_ok hload]
    constructor
    · rintro ⟨⟩
      exact ⟨v, rfl, rfl⟩
    · rintro ⟨w, rfl, ⟨⟩⟩
      rfl
  | error e mem₁ =>
    rw [bind_of_error hload]
    exact ⟨nofun, fun ⟨_, _, h⟩ => nomatch h⟩

theorem exec_store_eq_ok {e : Expr} {v : Bits} (he : vm.eval e mem = .ok (.bits v) mem) {m : Machine LinearMemory} :
    Machine.exec (.store a e) ⟨vm, mem⟩ = .ok () m ↔ m.vm = vm ∧ store vm.config addr v mem = .ok () m.bus := by
  rw [Machine.exec_store hkeys ha he]
  unfold Machine.onBus
  dsimp only [Value.toBits]
  cases hstore : store vm.config addr v mem with
  | ok u mem' =>
    constructor
    · rintro ⟨⟩
      exact ⟨rfl, rfl⟩
    · rintro ⟨rfl, ⟨⟩⟩
      rfl
  | error e mem' => exact ⟨nofun, fun ⟨_, h⟩ => nomatch h⟩

end Vm

/-- The memory is any linear memory in the byte order of the interpreter, whose addresses have 32 bits, and the range ends at
the last address at most. Loads and stores of any number of bytes succeed if and only if the memory covers the range. A store
leaves all bytes outside of it and the interpreter alone, and what it has stored is what a load then yields. If the bus has an
access of that size, it succeeds for the same addresses, it reads the number that a load yields, and writing a number with it
leads to the memory that storing that number leads to. -/
theorem memory_accesses {vm : Vm} {mem : LinearMemory} (hkeys : vm.config.memKeyBits = 32)
    (horder : vm.config.bigEndian = mem.bigEndian) {a : Expr} {addr : Address}
    (ha : vm.eval a mem = .ok (.bits (.ofBitVec addr Expr.word_pos)) mem) :
    (∀ n (hn : 0 < n * 8), n * 8 < 2 ^ 32 → addr.toNat + n ≤ 2 ^ 32 →
      ((∃ x mem', vm.eval (.load (n * 8) a) mem = .ok x mem') ↔ mem.Covers addr n) ∧
      ∀ e (v : BitVec (n * 8)), vm.eval e mem = .ok (.bits (.ofBitVec v hn)) mem →
        ((∃ m, Machine.exec (.store a e) ⟨vm, mem⟩ = .ok () m) ↔ mem.Covers addr n) ∧
        ∀ m, Machine.exec (.store a e) ⟨vm, mem⟩ = .ok () m → m.vm = vm ∧ mem.ChangedWithin addr n m.bus ∧
          ∀ b, vm.eval b m.bus = .ok (.bits (.ofBitVec addr Expr.word_pos)) m.bus →
            vm.eval (.load (n * 8) b) m.bus = .ok (.bits (.ofBitVec v hn)) m.bus) ∧
    ∀ size : Bus.Size, addr.toNat + size.bytes ≤ 2 ^ 32 →
      ((∃ x mem', vm.eval (.load (size.bytes * 8) a) mem = .ok x mem') ↔ ∃ w mem', Bus.read addr size mem = .ok w mem') ∧
      (∀ w mem', Bus.read addr size mem = .ok w mem' →
        vm.eval (.load (size.bytes * 8) a) mem = .ok (.bits (.ofBitVec w size.bits_pos)) mem') ∧
      ∀ e v, vm.eval e mem = .ok (.bits (.ofBitVec v size.bits_pos)) mem → ∀ vm' mem',
        Machine.exec (.store a e) ⟨vm, mem⟩ = .ok () ⟨vm', mem'⟩ ↔ vm' = vm ∧ Bus.write addr size v mem = .ok () mem' := by
  have hloads {n : Nat} (hn : 0 < n * 8) (hlt : n * 8 < 2 ^ 32) (hroom : addr.toNat + n ≤ 2 ^ 32) :
      (∃ x mem', vm.eval (.load (n * 8) a) mem = .ok x mem') ↔ mem.Covers addr n := by
    simp only [Vm.eval_load_eq_ok hkeys ha hlt, Vm.covers_iff_load vm.config hn hlt hroom]
    constructor
    · rintro ⟨-, mem', v, -, hload⟩
      exact ⟨v, mem', hload⟩
    · rintro ⟨v, mem', hload⟩
      exact ⟨_, mem', v, rfl, hload⟩
  constructor
  · intro n hn hlt hroom
    refine ⟨hloads hn hlt hroom, fun e v he => ⟨?_, fun m hm => ?_⟩⟩
    · simp only [Vm.exec_store_eq_ok hkeys ha he, Vm.covers_iff_store vm.config (v := v) hn hroom]
      constructor
      · rintro ⟨m, -, hstore⟩
        exact ⟨m.bus, hstore⟩
      · rintro ⟨mem', hstore⟩
        exact ⟨⟨vm, mem'⟩, rfl, hstore⟩
    · obtain ⟨hvm, hstore⟩ := (Vm.exec_store_eq_ok hkeys ha he).1 hm
      refine ⟨hvm, Vm.changedWithin_of_store hroom hstore, fun b hb => ?_⟩
      exact (Vm.eval_load_eq_ok hkeys hb hlt).2 ⟨_, rfl, Vm.load_of_store hroom hstore hlt⟩
  · intro size hroom
    refine ⟨(hloads size.bits_pos size.bits_lt hroom).trans LinearMemory.covers_iff_read, fun w mem' hread => ?_,
      fun e v he vm' mem' => ?_⟩
    · exact (Vm.eval_load_eq_ok hkeys ha size.bits_lt).2 ⟨_, rfl, Vm.load_of_read horder hroom hread⟩
    · rw [Vm.exec_store_eq_ok hkeys ha he, Vm.store_iff_write horder hroom]

/-- The last three bytes of a memory in big-endian order, and one more. -/
theorem memory_accesses_last_bytes :
    let vm : Vm := { config := { bigEndian := true }, pc := .zero 32 (by decide) }
    let mem : LinearMemory := ⟨#[1, 2, 3, 4], 0x8c000000, true⟩
    let a : Expr := .bits (.ofBitVec 0x8c000001#32 Expr.word_pos)
    let v : Bits := .ofBitVec 0xabcdef#24 (by decide)
    (¬ ∃ x mem', vm.eval (.load 32 a) mem = .ok x mem') ∧
    vm.eval (.load 16 a) mem = .ok (.bits (.ofBitVec 0x0203#16 (by decide))) mem ∧
    ∃ m, Machine.exec (.store a (.bits v)) ⟨vm, mem⟩ = .ok () m ∧ m.vm = vm ∧ mem.ChangedWithin 0x8c000001 3 m.bus ∧
      vm.eval (.load 24 a) m.bus = .ok (.bits v) m.bus := by
  intro vm mem a v
  have ha (bus : LinearMemory) : vm.eval a bus = .ok (.bits (.ofBitVec 0x8c000001#32 Expr.word_pos)) bus := rfl
  have hv : vm.eval (.bits v) mem = .ok (.bits v) mem := rfl
  obtain ⟨hranges, hsizes⟩ := memory_accesses rfl rfl (ha mem)
  obtain ⟨-, hstores⟩ := hranges 3 (by decide) (by decide) (by decide)
  obtain ⟨hstored, hstore⟩ := hstores (.bits v) 0xabcdef#24 hv
  obtain ⟨m, hm⟩ := hstored.2 (by decide)
  obtain ⟨hvm, hchange, hload⟩ := hstore m hm
  refine ⟨fun h => ?_, (hsizes .word (by decide)).2.1 0x0203#16 mem rfl, m, hm, hvm, hchange, hload a (ha m.bus)⟩
  exact absurd ((hranges 4 (by decide) (by decide) (by decide)).1.1 h) (by decide)

end SuperH
