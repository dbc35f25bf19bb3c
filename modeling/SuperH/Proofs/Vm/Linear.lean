import SuperH.Memory.Linear
import SuperH.Proofs.Vm.Soundness

/-!
# The interpreter on a linear memory

* `ReadsOnly` : a run that leaves the memory alone, and that only a load can make fail on the bus;
* `eval_readsOnly` : so does every expression;
* `writeBytes_eq_error` : bytes that are written up to the first that is not mapped;
* `Torn` : what a failure leaves of a memory if one store was begun before it.
-/

namespace SuperH

variable {α β : Type} {loads : Bool}

namespace Value

variable (x : Value) (addr : Address) (cause : BusError)

theorem asBool_ne_bus : x.asBool ≠ .error (.bus addr cause) := by cases x <;> exact nofun

theorem asBits_ne_bus : x.asBits ≠ .error (.bus addr cause) := by cases x <;> exact nofun

end Value

/-- The run leaves the memory alone. It fails on the bus only if `loads` is set. -/
def ReadsOnly (loads : Bool) (x : Eval LinearMemory α) : Prop :=
  ∀ mem, Satisfies (fun _ mem' => mem' = mem) (fun f mem' => mem' = mem ∧ (f.IsBus → loads = true)) (x mem)

namespace ReadsOnly

theorem pure {a : α} : ReadsOnly loads (Pure.pure a) := fun _ => rfl

theorem throw {e : Failure VmError} (h : ¬ e.IsBus) : ReadsOnly loads (MonadExcept.throw e : Eval LinearMemory α) :=
  fun _ => ⟨rfl, fun hbus => absurd hbus h⟩

theorem bind {x : Eval LinearMemory α} {f : α → Eval LinearMemory β} (hx : ReadsOnly loads x)
    (hf : ∀ a, ReadsOnly loads (f a)) : ReadsOnly loads (x >>= f) := by
  intro mem
  have h := hx mem
  cases hr : x mem with
  | ok a mem' =>
    rw [hr] at h
    obtain rfl : mem' = mem := h
    rw [bind_of_ok hr]
    exact hf a mem'
  | error e mem' =>
    rw [hr] at h
    rw [bind_of_error hr]
    exact h

theorem ofError {r : Except VmError α} (h : ∀ addr cause, r ≠ .error (.bus addr cause)) :
    ReadsOnly loads (Failure.ofError r) := by
  cases r with
  | ok a => exact pure
  | error e =>
    refine throw fun hbus => ?_
    cases e with
    | bus addr cause => exact h addr cause rfl
    | _ => exact hbus

theorem ofFault {r : Except Fault α} : ReadsOnly loads (Failure.ofFault r) := by
  cases r with
  | ok a => exact pure
  | error e => exact throw id

/-- Evaluating to a truth value and going on with it. -/
theorem bind_bool {x : Eval LinearMemory Value} {f : Bool → Eval LinearMemory β} (hx : ReadsOnly loads x)
    (hf : ∀ b, ReadsOnly loads (f b)) : ReadsOnly loads (x >>= fun a => Failure.ofError a.asBool >>= f) :=
  hx.bind fun a => (ofError a.asBool_ne_bus).bind hf

/-- Evaluating to a bit-vector and going on with it. -/
theorem bind_bits {x : Eval LinearMemory Value} {f : Bits → Eval LinearMemory β} (hx : ReadsOnly loads x)
    (hf : ∀ v, ReadsOnly loads (f v)) : ReadsOnly loads (x >>= fun a => Failure.ofError a.asBits >>= f) :=
  hx.bind fun a => (ofError a.asBits_ne_bus).bind hf

theorem requireSameWidth {x y : Nat} : ReadsOnly loads (Failure.ofError (Vm.requireSameWidth x y)) := by
  refine ofError fun addr cause => ?_
  unfold Vm.requireSameWidth
  split <;> exact nofun

theorem busAddress {config : VmConfig} {a : Bits} : ReadsOnly loads (Failure.ofError (Vm.busAddress config a)) := by
  refine ofError fun addr cause => ?_
  unfold Vm.busAddress
  split
  · exact nofun
  split <;> exact nofun

/-- One access that reads. -/
theorem reading {read : LinearMemory → Except BusError α} {addr : Address} :
    ReadsOnly true (EStateM.adaptExcept (fun cause => .error (.bus addr cause)) (LinearMemory.reading read)) := by
  intro mem
  unfold EStateM.adaptExcept LinearMemory.reading
  cases read mem with
  | ok a => rfl
  | error cause => exact ⟨rfl, fun _ => rfl⟩

end ReadsOnly

/-! ## Reading -/

/-- The expression loads only if `loads` is set. -/
def Expr.LoadsOnlyIf (loads : Bool) : Expr → Prop
  | .bool _ | .bits _ | .var _ => True
  | .ite c t e => c.LoadsOnlyIf loads ∧ t.LoadsOnlyIf loads ∧ e.LoadsOnlyIf loads
  | .not x | .msb x | .lsb x | .isZero x | .neg x | .complement x | .cast _ _ x => x.LoadsOnlyIf loads
  | .logic _ x y | .cmp _ x y | .arith _ x y | .shift _ x y => x.LoadsOnlyIf loads ∧ y.LoadsOnlyIf loads
  | .loadBits _ a => loads = true ∧ a.LoadsOnlyIf loads

namespace Vm

theorem readByte_readsOnly (addr : Address) : ReadsOnly true (readByte addr) := .reading

theorem readBytes_readsOnly (addr : Address) (n : Nat) : ReadsOnly true (readBytes addr n) := by
  induction n generalizing addr with
  | zero => exact .pure
  | succ n ih => exact (readByte_readsOnly addr).bind fun b => (ih (addr + 1)).bind fun bs => .pure

theorem load_readsOnly (config : VmConfig) (addr : Address) (bits : Nat) : ReadsOnly true (load config addr bits) := by
  unfold load
  split
  · exact .throw id
  · exact (readBytes_readsOnly addr (bits / 8)).bind fun bytes => .ofFault

/-- An expression leaves the memory alone, and fails on the bus only if it loads. -/
theorem eval_readsOnly (vm : Vm) {e : Expr} (h : e.LoadsOnlyIf loads) : ReadsOnly loads (vm.eval e) := by
  induction e with
  | bool b | bits v => exact .pure
  | var v =>
    refine .ofError fun addr cause => ?_
    unfold lookup
    dsimp only
    split <;> exact nofun
  | ite c t e ihc iht ihe =>
    refine .bind_bool (ihc h.1) fun b => ?_
    cases b
    · exact ihe h.2.2
    · exact iht h.2.1
  | not x ih => exact .bind_bool (ih h) fun b => .pure
  | logic op x y ihx ihy => exact .bind_bool (ihx h.1) fun a => .bind_bool (ihy h.2) fun b => .pure
  | msb x ih | lsb x ih | isZero x ih | neg x ih | complement x ih => exact .bind_bits (ih h) fun v => .pure
  | cmp op x y ihx ihy =>
    by_cases hop : op = .eq
    · subst hop
      exact (ihx h.1).bind fun a => (ihy h.2).bind fun b => ReadsOnly.requireSameWidth.bind fun _ => .pure
    · rw [eval_cmp hop]
      exact .bind_bits (ihx h.1) fun a => .bind_bits (ihy h.2) fun b => ReadsOnly.requireSameWidth.bind fun _ =>
        ReadsOnly.ofFault.bind fun _ => ReadsOnly.ofFault.bind fun _ => .pure
  | arith op x y ihx ihy =>
    exact .bind_bits (ihx h.1) fun a => .bind_bits (ihy h.2) fun b => ReadsOnly.requireSameWidth.bind fun _ =>
      ReadsOnly.ofFault.bind fun _ => .pure
  | shift op x n ihx ihn => exact .bind_bits (ihx h.1) fun v => (ihn h.2).bind fun n => .pure
  | cast signed width x ih =>
    rw [eval]
    split
    · exact (ih h).bind fun v => .pure
    · exact .throw id
  | loadBits n a ih =>
    obtain ⟨rfl, ha⟩ := h
    exact .bind_bits (ih ha) fun v => ReadsOnly.busAddress.bind fun a => (load_readsOnly vm.config a n.toNat).bind fun _ => .pure

end Vm

/-! ## Writing -/

namespace LinearMemory

theorem size_patch (bytes : Array UInt8) (off : Nat) (image : List UInt8) : (patch bytes off image).size = bytes.size := by
  induction image generalizing bytes off with
  | nil => rfl
  | cons b image ih => rw [patch, ih, Array.size_setIfInBounds]

/-- What is mapped does not depend on what is stored. -/
theorem offset_patched (mem : LinearMemory) (off : Nat) (image : List UInt8) :
    (mem.patched off image).offset = mem.offset := by
  funext addr length
  simp only [offset, patched, size_patch]

end LinearMemory

namespace Vm

variable {addr : Address} {bytes : List UInt8} {mem mem' : LinearMemory} {f : Failure VmError}

theorem writeByte_eq (addr : Address) (b : UInt8) (mem : LinearMemory) :
    writeByte addr b mem = match mem.offset addr 1 with
      | .ok off => .ok () (mem.patched off [b])
      | .error cause => .error (.error (.bus addr cause)) mem := by
  have hone : mem.ordered [b] = [b] := ite_self _
  show EStateM.adaptExcept _ (LinearMemory.writing addr (mem.ordered [b])) mem = _
  rw [hone]
  unfold EStateM.adaptExcept LinearMemory.writing
  cases mem.offset addr 1 <;> rfl

/-- Bytes that cannot all be written are written up to the first that is not mapped. -/
theorem writeBytes_eq_error (h : writeBytes addr bytes mem = .error f mem') :
    ∃ n cause, n < bytes.length ∧ writeBytes addr (bytes.take n) mem = .ok () mem' ∧
      mem.offset (addr + BitVec.ofNat 32 n) 1 = .error cause ∧ f = .error (.bus (addr + BitVec.ofNat 32 n) cause) := by
  induction bytes generalizing addr mem with
  | nil => cases h
  | cons b bytes ih =>
    have hfirst := writeByte_eq addr b mem
    cases hoff : mem.offset addr 1 with
    | error cause =>
      rw [hoff] at hfirst
      have h := (bind_of_error hfirst).symm.trans h
      cases h
      refine ⟨0, cause, Nat.succ_pos _, rfl, ?_, ?_⟩
      · rw [BitVec.add_zero, hoff]
      · rw [BitVec.add_zero]
    | ok off =>
      rw [hoff] at hfirst
      have h := (bind_of_ok hfirst).symm.trans h
      obtain ⟨n, cause, hn, hrun, hnext, hf⟩ := ih h
      have hadd : addr + BitVec.ofNat 32 (n + 1) = addr + 1 + BitVec.ofNat 32 n := by
        rw [BitVec.ofNat_add, BitVec.add_comm (BitVec.ofNat 32 n), BitVec.add_assoc]
        rfl
      rw [LinearMemory.offset_patched] at hnext
      refine ⟨n + 1, cause, Nat.succ_lt_succ hn, ?_, hadd ▸ hnext, hadd ▸ hf⟩
      exact (bind_of_ok hfirst).trans hrun

/-- The memory with some first bytes of a store, at least one. -/
structure StoredFirst (n : Nat) (addr : Address) (bytes : List UInt8) (mem mem' : LinearMemory) : Prop where
  pos : 0 < n
  le : n ≤ bytes.length
  written : writeBytes addr (bytes.take n) mem = .ok () mem'

/-- What a failure leaves of a memory if one store was begun before it. Either the store was cut where the mapped memory
ends, and this is the failure, or it was complete, and the failure is not the bus's unless `loads` is set. -/
def Torn (loads : Bool) (mem : LinearMemory) (f : Failure VmError) (mem' : LinearMemory) : Prop :=
  mem' = mem ∨ ∃ n addr bytes, StoredFirst n addr bytes mem mem' ∧
    (n < bytes.length → ∃ cause, mem.offset (addr + BitVec.ofNat 32 n) 1 = .error cause ∧
      f = .error (.bus (addr + BitVec.ofNat 32 n) cause)) ∧
    (n = bytes.length → f.IsBus → loads = true)

/-- What a store leaves of a memory. -/
def Stored (mem mem' : LinearMemory) : Prop := mem' = mem ∨ ∃ addr bytes, StoredFirst bytes.length addr bytes mem mem'

theorem writeBytes_torn (addr : Address) (bytes : List UInt8) (mem : LinearMemory) :
    Satisfies (fun _ => Stored mem) (Torn loads mem) (writeBytes addr bytes mem) := by
  cases hrun : writeBytes addr bytes mem with
  | ok u mem' =>
    cases bytes with
    | nil =>
      cases hrun
      exact .inl rfl
    | cons b bytes =>
      refine .inr ⟨addr, b :: bytes, Nat.succ_pos _, Nat.le_refl _, ?_⟩
      rw [List.take_length, hrun]
  | error f mem' =>
    obtain ⟨n, cause, hn, hwritten, hnext, hf⟩ := writeBytes_eq_error hrun
    cases n with
    | zero =>
      cases hwritten
      exact .inl rfl
    | succ n =>
      refine .inr ⟨n + 1, addr, bytes, ⟨Nat.succ_pos n, Nat.le_of_lt hn, hwritten⟩, fun _ => ⟨cause, hnext, hf⟩, ?_⟩
      exact fun hall => absurd hall (Nat.ne_of_lt hn)

theorem store_torn (config : VmConfig) (addr : Address) (v : Bits) (mem : LinearMemory) :
    Satisfies (fun _ => Stored mem) (Torn loads mem) (store config addr v mem) := by
  unfold store
  split
  · exact .inl rfl
  · exact writeBytes_torn addr _ mem

/-- A failure after a store. -/
theorem Stored.torn (h : Stored mem mem') (hf : f.IsBus → loads = true) : Torn loads mem f mem' := by
  rcases h with rfl | ⟨addr, bytes, h⟩
  · exact .inl rfl
  · exact .inr ⟨_, addr, bytes, h, fun hlt => absurd hlt (Nat.lt_irrefl _), fun _ => hf⟩

end Vm
end SuperH
