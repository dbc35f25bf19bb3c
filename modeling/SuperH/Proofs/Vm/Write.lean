import SuperH.Proofs.Vm.Linear
import SuperH.Proofs.Vm.Load

/-!
# Stores to mapped memory

* `Bus.ChangesOnly bus bus' low count` : the same bytes are mapped, and all but those of a range have their values;
  `ChangesOnly.trans`, `ChangesOnly.element` are how such changes go together and what they leave alone;
* `LinearMemory.byteAt_eq`, `LinearMemory.steady` : the bytes of a linear memory, which reading does not change;
* `Vm.store_eq` : a store to mapped bytes succeeds, the number can be read back, and nothing else changes.
-/

namespace SuperH

namespace Bus

variable {σ : Type} [Bus σ] {bus bus₁ bus₂ : σ} {low : Address} {count : Nat}

/-- The same bytes are mapped, and all but `count` of them from an address on have the same values. -/
structure ChangesOnly (bus bus' : σ) (low : Address) (count : Nat) : Prop where
  mapped : ∀ a, Mapped bus' a ↔ Mapped bus a
  byteAt : ∀ a, count ≤ (a - low).toNat → byteAt bus' a = byteAt bus a

namespace ChangesOnly

theorem refl : ChangesOnly bus bus low count := ⟨fun _ => Iff.rfl, fun _ _ => rfl⟩

/-- The ranges lie within a larger one. -/
theorem trans {low₁ low₂ : Address} {count₁ count₂ : Nat} (h₁ : ChangesOnly bus bus₁ low₁ count₁)
    (h₂ : ChangesOnly bus₁ bus₂ low₂ count₂) (hin₁ : ∀ a, count ≤ (a - low).toNat → count₁ ≤ (a - low₁).toNat)
    (hin₂ : ∀ a, count ≤ (a - low).toNat → count₂ ≤ (a - low₂).toNat) : ChangesOnly bus bus₂ low count where
  mapped a := (h₂.mapped a).trans (h₁.mapped a)
  byteAt a ha := (h₂.byteAt a (hin₂ a ha)).trans (h₁.byteAt a (hin₁ a ha))

theorem bytesAt (h : ChangesOnly bus bus₁ low count) {addr : Address} {n : Nat}
    (hout : ∀ i < n, count ≤ (addr + BitVec.ofNat 32 i - low).toNat) : bytesAt bus₁ addr n = bytesAt bus addr n :=
  List.map_congr_left fun i hi => h.byteAt _ (hout i (List.mem_range.1 hi))

/-- A number outside of the range is still there. -/
theorem element (h : ChangesOnly bus bus₁ low count) {bigEndian : Bool} {addr : Address} {n : Nat}
    (hout : ∀ i < n, count ≤ (addr + BitVec.ofNat 32 i - low).toNat) :
    element bus₁ bigEndian n addr = element bus bigEndian n addr := by
  rw [Bus.element, Bus.element, h.bytesAt hout]

end ChangesOnly

end Bus

/-! ## The bytes of a linear memory -/

namespace LinearMemory

variable {mem : LinearMemory} {addr : Address}

theorem offset_eq_ok {length off : Nat} : mem.offset addr length = .ok off ↔
    mem.base.toNat ≤ addr.toNat ∧ off = addr.toNat - mem.base.toNat ∧ off + length ≤ mem.bytes.size := by
  unfold offset
  split
  · exact ⟨nofun, fun h => absurd h.1 (Nat.not_le.2 ‹_›)⟩
  · split
    · refine ⟨fun h => ?_, fun h => congrArg _ h.2.1.symm⟩
      cases h
      exact ⟨Nat.le_of_not_lt ‹_›, rfl, ‹_›⟩
    · exact ⟨nofun, fun h => absurd (h.2.1 ▸ h.2.2) ‹_›⟩

/-- A byte has no order. -/
theorem readBytes_one {off : Nat} (h : mem.offset addr 1 = .ok off) :
    mem.readBytes addr 1 = .ok [mem.bytes[off]?.getD 0] := by
  obtain ⟨-, -, hlt⟩ := offset_eq_ok.1 h
  have hone : (mem.bytes.extract off (off + 1)).toList = [mem.bytes[off]?.getD 0] := by
    have hnone : mem.bytes.extract off off = #[] := Array.extract_empty_of_stop_le_start (Nat.le_refl off)
    rw [Array.extract_succ_right (Nat.lt_succ_self off) hlt, Array.getElem?_eq_getElem hlt, hnone]
    rfl
  rw [readBytes, h]
  show Except.ok (mem.ordered (mem.bytes.extract off (off + 1)).toList) = _
  rw [hone]
  exact congrArg _ (ite_self _)

theorem read8_of_offset {off : Nat} (h : mem.offset addr 1 = .ok off) :
    Bus.read8 addr mem = .ok (mem.bytes[off]?.getD 0) mem := by
  show reading _ mem = _
  unfold reading
  dsimp only
  rw [readBytes_one h]
  show EStateM.Result.ok (UInt8.ofNat (ofLeBytes [mem.bytes[off]?.getD 0])) mem = _
  simp [ofLeBytes]

theorem read8_of_offset_error {cause : BusError} (h : mem.offset addr 1 = .error cause) :
    Bus.read8 addr mem = .error cause mem := by
  show reading _ mem = _
  unfold reading
  dsimp only
  rw [readBytes, h]
  rfl

theorem mapped_iff : Bus.Mapped mem addr ↔ ∃ off, mem.offset addr 1 = .ok off := by
  cases h : mem.offset addr 1 with
  | ok off => exact ⟨fun _ => ⟨off, rfl⟩, fun _ => ⟨_, read8_of_offset h⟩⟩
  | error cause =>
    refine ⟨fun ⟨b, hb⟩ => ?_, fun ⟨off, hoff⟩ => nomatch hoff⟩
    rw [read8_of_offset_error h] at hb
    cases hb

theorem steady (mem : LinearMemory) : Bus.Steady mem := by
  intro addr
  cases h : mem.offset addr 1 with
  | ok off => exact .inl ⟨_, read8_of_offset h⟩
  | error cause => exact .inr ⟨cause, read8_of_offset_error h⟩

theorem byteAt_eq (mem : LinearMemory) (addr : Address) : Bus.byteAt mem addr = match mem.offset addr 1 with
    | .ok off => mem.bytes[off]?.getD 0
    | .error _ => 0 := by
  unfold Bus.byteAt
  cases h : mem.offset addr 1 with
  | ok off => rw [read8_of_offset h]
  | error cause => rw [read8_of_offset_error h]

/-- Different addresses are different places. -/
theorem offset_inj {a b : Address} {off : Nat} (ha : mem.offset a 1 = .ok off) (hb : mem.offset b 1 = .ok off) : a = b := by
  obtain ⟨hbase, heq, -⟩ := offset_eq_ok.1 ha
  obtain ⟨hbase', heq', -⟩ := offset_eq_ok.1 hb
  exact BitVec.eq_of_toNat_eq (by omega)

/-- Another byte at one place. -/
theorem byteAt_patched {off : Nat} (h : mem.offset addr 1 = .ok off) (b : UInt8) (a : Address) :
    Bus.byteAt (mem.patched off [b]) a = if a = addr then b else Bus.byteAt mem a := by
  have hlt := (offset_eq_ok.1 h).2.2
  rw [byteAt_eq, byteAt_eq, offset_patched]
  by_cases haddr : a = addr
  · subst haddr
    rw [h, if_pos rfl]
    show (mem.bytes.setIfInBounds off b)[off]?.getD 0 = b
    rw [Array.getElem?_setIfInBounds_self_of_lt hlt]
    rfl
  · rw [if_neg haddr]
    cases ha : mem.offset a 1 with
    | error cause => rfl
    | ok off' =>
      have hne : off ≠ off' := fun heq => haddr (offset_inj ha (heq ▸ h))
      show (mem.bytes.setIfInBounds off b)[off']?.getD 0 = _
      rw [Array.getElem?_setIfInBounds_ne hne]

end LinearMemory

namespace Vm

variable {mem : LinearMemory} {addr : Address}

/-! ## Stores -/

theorem writeByte_of_mapped (h : Bus.Mapped mem addr) (b : UInt8) : ∃ mem', writeByte addr b mem = .ok () mem' ∧
    Bus.ChangesOnly mem mem' addr 1 ∧ Bus.byteAt mem' addr = b := by
  obtain ⟨off, hoff⟩ := LinearMemory.mapped_iff.1 h
  refine ⟨mem.patched off [b], ?_, ⟨fun a => ?_, fun a ha => ?_⟩, ?_⟩
  · rw [writeByte_eq, hoff]
  · rw [LinearMemory.mapped_iff, LinearMemory.mapped_iff, LinearMemory.offset_patched]
  · have hne : a ≠ addr := by
      rintro rfl
      rw [BitVec.sub_self] at ha
      exact absurd ha (by decide)
    rw [LinearMemory.byteAt_patched hoff, if_neg hne]
  · rw [LinearMemory.byteAt_patched hoff, if_pos rfl]

theorem writeBytes_of_mapped {bytes : List UInt8} (hlength : bytes.length < 2 ^ 32)
    (h : ∀ i < bytes.length, Bus.Mapped mem (addr + BitVec.ofNat 32 i)) : ∃ mem', writeBytes addr bytes mem = .ok () mem' ∧
      Bus.ChangesOnly mem mem' addr bytes.length ∧ Bus.bytesAt mem' addr bytes.length = bytes := by
  induction bytes generalizing addr mem with
  | nil => exact ⟨mem, rfl, .refl, rfl⟩
  | cons b bytes ih =>
    rw [List.length_cons] at hlength h ⊢
    have hfirst := h 0 (Nat.succ_pos _)
    rw [BitVec.add_zero] at hfirst
    obtain ⟨mem₁, hwrite, hchange, hbyte⟩ := writeByte_of_mapped hfirst b
    have hmapped : ∀ i < bytes.length, Bus.Mapped mem₁ (addr + 1 + BitVec.ofNat 32 i) := by
      intro i hi
      rw [hchange.mapped, Bus.add_one_add]
      exact h (i + 1) (by omega)
    obtain ⟨mem₂, hrest, hchange', hbytes⟩ := ih (by omega) hmapped
    refine ⟨mem₂, (bind_of_ok hwrite).trans hrest, hchange.trans hchange' (fun a ha => by omega) fun a ha => ?_, ?_⟩
    · bv_omega
    · have hkept : Bus.byteAt mem₂ addr = Bus.byteAt mem₁ addr := hchange'.byteAt addr (by bv_omega)
      rw [Bus.bytesAt_succ, hkept, hbyte, hbytes]

theorem length_ordered_leBytes (config : VmConfig) (n v : Nat) : (ordered config (leBytes n v)).length = n :=
  (length_ordered ..).trans (length_leBytes ..)

/-- A store writes the bytes of the number. -/
theorem store_ofBitVec (config : VmConfig) (addr : Address) {n : Nat} (v : BitVec (n * 8)) (hn : 0 < n * 8) :
    (store config addr (.ofBitVec v hn) : Eval LinearMemory Unit) = writeBytes addr (ordered config (leBytes n v.toNat)) := by
  have hbytes : (Bits.ofBitVec v hn).toLeBytes = leBytes n v.toNat := by
    rw [Bits.toLeBytes_eq, Bits.toNat_ofBitVec, Bits.width_ofBitVec]
    congr 1
    omega
  have hwidth : ¬ (Bits.ofBitVec v hn).width % 8 ≠ 0 := by
    rw [Bits.width_ofBitVec]
    omega
  rw [store, if_neg hwidth, hbytes]

/-- A number that is stored to mapped bytes can be read back. -/
theorem store_eq (config : VmConfig) {n : Nat} {v : BitVec (n * 8)} (hn : 0 < n * 8) (hlt : n < 2 ^ 32)
    (h : ∀ i < n, Bus.Mapped mem (addr + BitVec.ofNat 32 i)) :
    ∃ mem', store config addr (.ofBitVec v hn) mem = .ok () mem' ∧ Bus.ChangesOnly mem mem' addr n ∧
      Bus.element mem' config.bigEndian n addr = v := by
  have hlength := length_ordered_leBytes config n v.toNat
  have hmapped : ∀ i < (ordered config (leBytes n v.toNat)).length, Bus.Mapped mem (addr + BitVec.ofNat 32 i) := by
    rwa [hlength]
  obtain ⟨mem', hwrite, hchange, hread⟩ := writeBytes_of_mapped (by omega) hmapped
  rw [hlength] at hchange hread
  refine ⟨mem', ?_, hchange, ?_⟩
  · rw [store_ofBitVec]
    exact hwrite
  · have hordered : (if config.bigEndian then (ordered config (leBytes n v.toNat)).reverse
        else ordered config (leBytes n v.toNat)) = leBytes n v.toNat := by
      unfold ordered
      cases config.bigEndian <;> simp
    have hv : v.toNat % 2 ^ (8 * n) = v.toNat := by rw [Nat.mul_comm 8 n, Nat.mod_eq_of_lt v.isLt]
    rw [Bus.element, hread, hordered, ofLeBytes_leBytes, hv, BitVec.ofNat_toNat, BitVec.setWidth_eq]

end Vm
end SuperH
