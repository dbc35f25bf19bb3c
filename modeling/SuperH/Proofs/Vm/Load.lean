import SuperH.Memory.Linear
import SuperH.Proofs.Bits.BitVec
import SuperH.Proofs.Vm.Soundness

/-!
# Loads from memory

* `Bus.Mapped`, `Bus.byteAt` : a byte can be read, which changes nothing, and its value;
* `Bus.element` : the number that several bytes stand for, in either byte order;
* `Bus.Steady` : a memory that reads never change (`Bus.Steady.exists_first`);
* `Vm.load_eq` : a load of mapped bytes yields their number;
* `Vm.load_error` : a load fails at the first byte that cannot be read;
* `Vm.eval_load`, `Machine.exec_store` : what the expression and the effect do once the address is known.
-/

namespace SuperH

namespace Bus

variable {σ : Type} [Bus σ] (bus : σ)

/-- The byte at an address can be read, and reading it changes nothing. -/
def Mapped (addr : Address) : Prop := ∃ b, Bus.read8 addr bus = .ok b bus

/-- The byte that is read at an address, or zero if none can be. -/
def byteAt (addr : Address) : UInt8 :=
  match Bus.read8 addr bus with
  | .ok b _ => b
  | .error .. => 0

/-- The bytes upwards from an address, which wraps around. -/
def bytesAt (addr : Address) (count : Nat) : List UInt8 :=
  (List.range count).map fun i => byteAt bus (addr + BitVec.ofNat 32 i)

/-- The number that the bytes upwards from an address stand for. -/
def element (bigEndian : Bool) (count : Nat) (addr : Address) : BitVec (count * 8) :=
  BitVec.ofNat _ (ofLeBytes (if bigEndian then (bytesAt bus addr count).reverse else bytesAt bus addr count))

variable {bus} {addr : Address} {n : Nat}

theorem length_bytesAt : (bytesAt bus addr n).length = n := by
  rw [bytesAt, List.length_map, List.length_range]

/-- An address and the ones after it, counted from the next. -/
theorem add_one_add (addr : Address) (i : Nat) : addr + 1 + BitVec.ofNat 32 i = addr + BitVec.ofNat 32 (i + 1) := by
  rw [BitVec.add_assoc, BitVec.ofNat_add, BitVec.add_comm 1]
  rfl

theorem bytesAt_succ : bytesAt bus addr (n + 1) = byteAt bus addr :: bytesAt bus (addr + 1) n := by
  rw [bytesAt, List.range_succ_eq_map, List.map_cons, List.map_map, BitVec.add_zero]
  refine congrArg _ (List.map_congr_left fun i _ => ?_)
  rw [add_one_add]
  rfl

/-- Every byte can be read or is refused, and either leaves the memory alone. -/
def Steady (bus : σ) : Prop := ∀ addr, Mapped bus addr ∨ ∃ cause, Bus.read8 addr bus = .error cause bus

/-- Of bytes that cannot all be read there is a first one that is refused. -/
theorem Steady.exists_first (h : Steady bus) (addr : Address) {n : Nat}
    (hn : ¬ ∀ i < n, Mapped bus (addr + BitVec.ofNat 32 i)) :
    ∃ k < n, (∀ i < k, Mapped bus (addr + BitVec.ofNat 32 i)) ∧
      ∃ cause, Bus.read8 (addr + BitVec.ofNat 32 k) bus = .error cause bus := by
  induction n with
  | zero => exact absurd (fun i hi => absurd hi (Nat.not_lt_zero i)) hn
  | succ n ih =>
    by_cases hbefore : ∀ i < n, Mapped bus (addr + BitVec.ofNat 32 i)
    · rcases h (addr + BitVec.ofNat 32 n) with hlast | hrefused
      · exact absurd (Nat.forall_lt_succ_right.2 ⟨hbefore, hlast⟩) hn
      · exact ⟨n, Nat.lt_succ_self n, hbefore, hrefused⟩
    · obtain ⟨k, hk, hfirst⟩ := ih hbefore
      exact ⟨k, Nat.lt_succ_of_lt hk, hfirst⟩

end Bus

/-- What a linear memory holds is mapped. -/
theorem LinearMemory.mapped {mem : LinearMemory} {addr : Address} (hbase : mem.base.toNat ≤ addr.toNat)
    (hlt : addr.toNat < mem.base.toNat + mem.bytes.size) : Bus.Mapped mem addr := by
  have hoffset : mem.offset addr 1 = .ok (addr.toNat - mem.base.toNat) := by
    rw [offset, if_neg (Nat.not_lt.2 hbase), if_pos (by omega)]
  obtain ⟨bytes, hread⟩ : ∃ bytes, mem.readBytes addr 1 = .ok bytes := by
    rw [readBytes, hoffset]
    exact ⟨_, rfl⟩
  refine ⟨UInt8.ofNat (ofLeBytes bytes), ?_⟩
  show reading _ mem = _
  unfold reading
  dsimp only
  rw [hread]
  rfl

theorem LinearMemory.mapped_of_lt {mem : LinearMemory} {addr : Address} (hbase : mem.base = 0)
    (hlt : addr.toNat < mem.bytes.size) : Bus.Mapped mem addr := by
  have hzero : mem.base.toNat = 0 := congrArg BitVec.toNat hbase
  exact mapped (by omega) (by omega)

namespace Vm

variable {σ : Type} [Bus σ] {bus : σ} {addr : Address} {n : Nat}

theorem readByte_eq (h : Bus.Mapped bus addr) : readByte addr bus = .ok (Bus.byteAt bus addr) bus := by
  obtain ⟨b, hb⟩ := h
  rw [readByte, EStateM.adaptExcept, Bus.byteAt, hb]

theorem readBytes_eq (h : ∀ i < n, Bus.Mapped bus (addr + BitVec.ofNat 32 i)) :
    readBytes addr n bus = .ok (Bus.bytesAt bus addr n) bus := by
  induction n generalizing addr with
  | zero => rfl
  | succ n ih =>
    have hfirst := h 0 (Nat.succ_pos n)
    rw [BitVec.add_zero] at hfirst
    have hrest : readBytes (addr + 1) n bus = _ := ih fun i hi => by
      rw [Bus.add_one_add]
      exact h (i + 1) (Nat.succ_lt_succ hi)
    rw [readBytes, bind_of_ok (readByte_eq hfirst), bind_of_ok hrest, Bus.bytesAt_succ]
    rfl

/-- Reading stops at a byte that is refused. -/
theorem readBytes_error {k : Nat} {cause : BusError} {bus' : σ} (hk : k < n)
    (h : ∀ i < k, Bus.Mapped bus (addr + BitVec.ofNat 32 i))
    (hcause : Bus.read8 (addr + BitVec.ofNat 32 k) bus = .error cause bus') :
    readBytes addr n bus = .error (.error (.bus (addr + BitVec.ofNat 32 k) cause)) bus' := by
  induction k generalizing addr n with
  | zero =>
    obtain ⟨n, rfl⟩ := Nat.exists_eq_succ_of_ne_zero (Nat.ne_of_gt hk)
    rw [BitVec.add_zero] at hcause ⊢
    have hfirst : readByte addr bus = .error (.error (.bus addr cause)) bus' := by
      rw [readByte, EStateM.adaptExcept, hcause]
    rw [readBytes]
    exact bind_of_error hfirst
  | succ k ih =>
    obtain ⟨n, rfl⟩ := Nat.exists_eq_succ_of_ne_zero (Nat.ne_of_gt (Nat.zero_lt_of_lt hk))
    have hfirst := h 0 (Nat.succ_pos k)
    rw [BitVec.add_zero] at hfirst
    rw [← Bus.add_one_add] at hcause ⊢
    have hrest : readBytes (addr + 1) n bus = _ := ih (Nat.lt_of_succ_lt_succ hk) (fun i hi => by
      rw [Bus.add_one_add]
      exact h (i + 1) (Nat.succ_lt_succ hi)) hcause
    rw [readBytes, bind_of_ok (readByte_eq hfirst)]
    exact bind_of_error hrest

theorem load_error (config : VmConfig) {k : Nat} {cause : BusError} {bus' : σ} (hk : k < n)
    (h : ∀ i < k, Bus.Mapped bus (addr + BitVec.ofNat 32 i))
    (hcause : Bus.read8 (addr + BitVec.ofNat 32 k) bus = .error cause bus') :
    load config addr (n * 8) bus = .error (.error (.bus (addr + BitVec.ofNat 32 k) cause)) bus' := by
  have hsize : ¬ (n * 8 = 0 ∨ n * 8 % 8 ≠ 0) := by omega
  rw [load, if_neg hsize, Nat.mul_div_cancel n (by decide)]
  exact bind_of_error (readBytes_error hk h hcause)

/-- A load of mapped bytes yields the number that they stand for. -/
theorem load_eq (config : VmConfig) (hn : 0 < n * 8) (hlt : n * 8 < 2 ^ 32)
    (h : ∀ i < n, Bus.Mapped bus (addr + BitVec.ofNat 32 i)) :
    load config addr (n * 8) bus = .ok (.ofBitVec (Bus.element bus config.bigEndian n addr) hn) bus := by
  have hsize : ¬ (n * 8 = 0 ∨ n * 8 % 8 ≠ 0) := by omega
  have hlength : (ordered config (Bus.bytesAt bus addr n)).length = n := (length_ordered ..).trans Bus.length_bytesAt
  have hwidth : 8 * (ordered config (Bus.bytesAt bus addr n)).length = n * 8 := by rw [hlength, Nat.mul_comm]
  have hv : Bits.ofLeBytes (ordered config (Bus.bytesAt bus addr n)) =
      .ok (.ofBitVec (Bus.element bus config.bigEndian n addr) hn) := by
    rw [Bits.ofLeBytes_of_lt (hwidth ▸ hn) (hwidth ▸ hlt), Bus.element, Bits.ofBitVec_ofNat]
    refine congrArg Except.ok (Bits.ext_toNat hwidth ?_)
    rw [Bits.toNat_ofNat, Bits.toNat_ofNat, hwidth]
    rfl
  rw [load, if_neg hsize, Nat.mul_div_cancel n (by decide)]
  refine (bind_of_ok (readBytes_eq h)).trans ?_
  show Failure.ofFault (Bits.ofLeBytes (ordered config (Bus.bytesAt bus addr n))) bus = _
  rw [hv]
  rfl

/-! ## Addresses -/

variable {vm : Vm} {a : Expr} {bus₁ : σ}

/-- A word is an address. -/
theorem busAddress_word {config : VmConfig} (hkeys : config.memKeyBits = 32) (addr : Address) :
    busAddress config (.ofBitVec addr Expr.word_pos) = .ok addr := by
  rw [busAddress_eq_ok hkeys rfl, Bits.toNat_ofBitVec, BitVec.ofNat_toNat, BitVec.setWidth_eq]

theorem eval_load (hkeys : vm.config.memKeyBits = 32)
    (ha : vm.eval a bus = .ok (.bits (.ofBitVec addr Expr.word_pos)) bus₁) {bits : Nat} (hbits : bits < 2 ^ 32) :
    vm.eval (.load bits a) bus = (load vm.config addr bits >>= fun v => return Value.bits v) bus₁ := by
  have hsize : (BitVec.ofNat 32 bits).toNat = bits := Nat.mod_eq_of_lt hbits
  refine (bind_of_ok ha).trans ?_
  show (Failure.ofError (busAddress vm.config (.ofBitVec addr Expr.word_pos)) >>= fun a =>
    load vm.config a (BitVec.ofNat 32 bits).toNat >>= fun v => return Value.bits v : Eval σ Value) bus₁ = _
  rw [busAddress_word hkeys, hsize]
  rfl

end Vm

namespace Machine

variable {σ : Type} [Bus σ] {vm : Vm} {a e : Expr} {addr : Address} {v : Value} {bus bus₁ bus₂ : σ}

theorem address_of_eval (hkeys : vm.config.memKeyBits = 32)
    (ha : vm.eval a bus = .ok (.bits (.ofBitVec addr Expr.word_pos)) bus₁) : address a ⟨vm, bus⟩ = .ok addr ⟨vm, bus₁⟩ := by
  have hrun : (do
      let a ← Failure.ofError (← vm.eval a).asBits
      Failure.ofError (Vm.busAddress vm.config a) : Eval σ Address) bus = .ok addr bus₁ := by
    refine (bind_of_ok ha).trans ?_
    show Failure.ofError (Vm.busAddress vm.config (.ofBitVec addr Expr.word_pos)) bus₁ = _
    rw [Vm.busAddress_word hkeys]
    rfl
  unfold address onBus
  dsimp only
  rw [hrun]

/-- The address is evaluated before the value. -/
theorem exec_store (hkeys : vm.config.memKeyBits = 32)
    (ha : vm.eval a bus = .ok (.bits (.ofBitVec addr Expr.word_pos)) bus₁) (he : vm.eval e bus₁ = .ok v bus₂) :
    exec (.store a e) ⟨vm, bus⟩ = onBus (fun vm => Vm.store vm.config addr v.toBits) ⟨vm, bus₂⟩ := by
  have hvalue : value e ⟨vm, bus₁⟩ = .ok v ⟨vm, bus₂⟩ := by
    unfold value onBus
    dsimp only
    rw [he]
  exact (bind_of_ok (address_of_eval hkeys ha)).trans (bind_of_ok hvalue)

end Machine
end SuperH
