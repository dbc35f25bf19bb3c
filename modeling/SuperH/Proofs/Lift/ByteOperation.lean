import SuperH.Proofs.Lift.OnRegisters
import SuperH.Proofs.Vm.Write

/-!
# Instructions on a byte of memory

* `ByteOperation` : AND.B, OR.B, XOR.B and TST.B of an immediate and a byte, and TAS.B; `result` is the byte that they leave,
  `condition` the flag T, and `address` where the byte is;
* `ByteOperation.effect`, `ByteOperation.exists_lift` : what such an instruction means;
* `ByteOperation.exec_of_mapped`, `ByteOperation.exec_error` : what that does to a state and a memory, and that it fails
  first of all if the byte cannot be read.
-/

namespace SuperH

open SuperH.Expr SuperH.Effect SuperH.Cpu

/-- An instruction that reads a byte of memory, and may write it. -/
inductive ByteOperation where
  | and (imm : Nat)
  | or (imm : Nat)
  | xor (imm : Nat)
  | test (imm : Nat)
  | testAndSet (n : Fin 16)

namespace ByteOperation

def mnemonic : ByteOperation → Mnemonic
  | and _ => .and
  | or _ => .or
  | xor _ => .xor
  | test _ => .tst
  | testAndSet _ => .tas

/-- The operand that names the byte. -/
def target : ByteOperation → Operand
  | testAndSet n => .indirect n
  | _ => .gbrIndexed

def operands (op : ByteOperation) : List Operand :=
  match op with
  | and imm | or imm | xor imm | test imm => [.immU imm, op.target]
  | testAndSet _ => [op.target]

/-- The access size says that the operation is on a byte; TAS is on a byte whatever it says. -/
def Sized (op : ByteOperation) (size : AccessSize) : Prop :=
  match op with
  | testAndSet _ => True
  | _ => size = .byte

/-- The byte that the operation leaves. -/
def result (b : UInt8) : ByteOperation → UInt8
  | and imm => b &&& UInt8.ofNat imm
  | or imm => b ||| UInt8.ofNat imm
  | xor imm => b ^^^ UInt8.ofNat imm
  | test _ => b
  | testAndSet _ => b ||| 0x80

/-- The flag T after the operation. -/
def condition (b : UInt8) (t : Bool) : ByteOperation → Bool
  | test imm => b &&& UInt8.ofNat imm == 0
  | testAndSet _ => b == 0
  | _ => t

/-- The address of the byte. -/
def address (st : State) : ByteOperation → Address
  | testAndSet n => st.reg n
  | _ => st.named gbr + st.named r0

theorem address_eq (op : ByteOperation) (st : State) (pc : Address) :
    st.address pc .byte op.target = some (op.address st) := by
  cases op with
  | testAndSet n => exact congrArg some (st.named_general n)
  | _ => rfl

theorem address_setFlag (op : ByteOperation) (st : State) (b : Bool) : op.address (st.setFlag .t b) = op.address st := by
  have hgbr (st : State) : st.named gbr = (slot gbr).value st := by rw [State.named, st.place_saved (by decide)]
  have hreg (n : Fin 16) : (st.setFlag .t b).reg n = st.reg n := st.reg_setFlag (by decide) (by decide) b n
  have hr0 (st : State) : st.named r0 = st.reg 0 := st.named_general 0
  cases op with
  | testAndSet n => exact hreg n
  | _ =>
    show (st.setFlag .t b).named gbr + (st.setFlag .t b).named r0 = st.named gbr + st.named r0
    rw [hgbr, hgbr, hr0, hr0, hreg]
    rfl

/-! ## The meaning -/

/-- The operation on the byte at an address. -/
def effect (addr : Expr) : ByteOperation → Effect
  | and imm => .store addr ((immediate .byte imm).bitAnd (.load 8 addr))
  | or imm => .store addr ((immediate .byte imm).bitOr (.load 8 addr))
  | xor imm => .store addr ((immediate .byte imm).bitXor (.load 8 addr))
  | test imm => Flag.t.assign (.isZero ((immediate .byte imm).bitAnd (.load 8 addr)))
  | testAndSet _ => .sequence [setTemp "byte" (.load 8 addr), Flag.t.assign (.isZero (temp "byte")),
    .store addr ((temp "byte").bitOr (const 8 0x80))]

section

variable (op : ByteOperation) {cx : Context} {index : Nat} {addr : Expr}

theorem read_target {pc : Nat} (haddr : Cpu.address op.target .byte pc = .ok addr) :
    Cpu.read op.target .byte pc = .ok { value := .load 8 addr } := by
  unfold Cpu.read
  cases op <;>
  · dsimp only [target] at haddr ⊢
    rw [haddr]
    rfl

variable (ho : cx.operand index = .ok op.target) (haddr : Cpu.address op.target .byte cx.pc = .ok addr)

include ho haddr

theorem value_target : cx.value index .byte = .ok (.load 8 addr) := by
  rw [Context.value, Context.read_of_operand ho, op.read_target haddr]
  rfl

theorem write_target (value : Expr) : cx.write index value .byte = .ok (.store addr value) := by
  have hread := op.read_target haddr
  rw [Context.write, ho]
  show Cpu.write op.target value .byte cx.pc = _
  unfold Cpu.write
  cases op <;>
  · dsimp only [target] at haddr hread ⊢
    rw [hread, haddr]
    rfl

end

/-- AND, OR and XOR write what they combine. -/
theorem bitwise_target (op : ByteOperation) (cx : Context) {imm : Nat} {addr : Expr} (combine : Expr → Expr → Expr)
    (hsize : cx.insn.size = .byte) (hs : cx.operand 0 = .ok (.immU imm)) (ht : cx.operand 1 = .ok op.target)
    (haddr : Cpu.address op.target .byte cx.pc = .ok addr) :
    Lift.bitwise cx combine = .ok (.store addr (combine (immediate .byte imm) (.load 8 addr))) := by
  have hm : cx.value 0 = .ok (immediate .byte imm) := by
    rw [Context.value, Context.read_of_operand hs, hsize]
    rfl
  have hn : cx.value 1 = .ok (.load 8 addr) := hsize ▸ op.value_target ht haddr
  have hwrite : cx.write 1 (combine (immediate .byte imm) (.load 8 addr)) = _ := hsize ▸ op.write_target ht haddr _
  unfold Lift.bitwise
  rw [hm, hn]
  exact hwrite

theorem lift_eq_effect (op : ByteOperation) {size : AccessSize} (hsize : op.Sized size) {pc : Nat} {addr : Expr}
    (haddr : Cpu.address op.target .byte pc = .ok addr) (opcode : Nat) (privileged : Bool) :
    lift ⟨op.mnemonic, op.operands, size, opcode⟩ pc privileged = .ok (.effect (op.effect addr)) := by
  let cx : Context := ⟨⟨op.mnemonic, op.operands, size, opcode⟩, pc⟩
  have hneeds : Lift.needsPrivilege cx = false := by cases op <;> rfl
  refine lift_eq pc privileged hneeds ?_
  cases op with
  | and imm => exact bitwise_target (and imm) cx .bitAnd hsize rfl rfl haddr
  | or imm => exact bitwise_target (or imm) cx .bitOr hsize rfl rfl haddr
  | xor imm => exact bitwise_target (xor imm) cx .bitXor hsize rfl rfl haddr
  | test imm =>
    obtain rfl : size = .byte := hsize
    have htarget : cx.operand 1 = .ok (test imm).target := rfl
    show Lift.test cx = _
    unfold Lift.test
    rw [(test imm).value_target htarget haddr]
    rfl
  | testAndSet n =>
    have htarget : cx.operand 0 = .ok (testAndSet n).target := rfl
    have hbyte := (testAndSet n).value_target htarget haddr
    have hwrite := (testAndSet n).write_target htarget haddr
    show Lift.testAndSet cx = _
    unfold Lift.testAndSet
    rw [hbyte]
    show (do let target ← cx.write 0 _ .byte; _ : Build Effect) = _
    rw [hwrite]
    rfl

end ByteOperation

/-! ## The effect on a state and a memory -/

theorem toBitVec_beq_zero (b : UInt8) : (b.toBitVec == 0) = (b == 0) := by
  rw [Bool.eq_iff_iff, beq_iff_eq, beq_iff_eq]
  exact UInt8.toBitVec_inj

theorem Bus.Mapped.one {σ : Type} [Bus σ] {bus : σ} {addr : Address} (h : Mapped bus addr) :
    ∀ i < 1, Mapped bus (addr + BitVec.ofNat 32 i) := by
  intro i hi
  obtain rfl : i = 0 := by omega
  rwa [BitVec.add_zero]

/-- A byte is a number of its own. -/
theorem Bus.element_one {σ : Type} [Bus σ] (bus : σ) (bigEndian : Bool) (addr : Address) :
    Bus.element bus bigEndian 1 addr = (Bus.byteAt bus addr).toBitVec := by
  have hbytes : Bus.bytesAt bus addr 1 = [Bus.byteAt bus addr] := by
    rw [Bus.bytesAt_succ]
    rfl
  rw [Bus.element, hbytes, List.reverse_singleton, ite_self]
  simp [ofLeBytes]

namespace Cpu

variable {bigEndian : Bool} {x : Frame} {vm : Vm} {mem : LinearMemory} {a e : Expr} {addr : Address}

theorem Evals.immediateByte (imm : Nat) :
    Evals x (immediate .byte imm) (.bits (.ofBitVec (UInt8.ofNat imm).toBitVec byte_pos)) := by
  have himm : Bits.ofBitVec (UInt8.ofNat imm).toBitVec byte_pos = Bits.ofInt 8 imm byte_pos := by
    refine Bits.ext_toNat rfl ?_
    rw [Bits.toNat_ofBitVec, Bits.ofInt, Bits.toNat_ofNat]
    simp
    omega
  rw [himm]
  exact .bits _

theorem EvalsOn.loadByte {σ : Type} [Bus σ] {bus : σ} (ha : Evals x a (.word addr)) (hmapped : Bus.Mapped bus addr) :
    EvalsOn bigEndian bus x (.load 8 a) (.bits (.ofBitVec (Bus.byteAt bus addr).toBitVec byte_pos)) := by
  rw [← Bus.element_one bus bigEndian]
  exact .load (n := 1) byte_pos (by decide) ha hmapped.one

/-- A byte that is stored to a mapped address is all that changes. -/
theorem exec_storeByte (hvm : SetUp bigEndian vm) (hx : Shows vm x) (ha : Evals x a (.word addr)) {b : UInt8}
    (he : EvalsOn bigEndian mem x e (.bits (.ofBitVec b.toBitVec byte_pos))) (hmapped : Bus.Mapped mem addr) :
    ∃ mem', Machine.exec (.store a e) ⟨vm, mem⟩ = .ok () ⟨vm, mem'⟩ ∧ Bus.byteAt mem' addr = b ∧
      Bus.ChangesOnly mem mem' addr 1 := by
  obtain ⟨mem', hstore, hchange, hread⟩ :=
    Vm.store_eq (vmConfig bigEndian) (n := 1) (v := b.toBitVec) byte_pos (by decide) hmapped.one
  refine ⟨mem', exec_store hvm (ha.eval mem hx) (he.eval hvm hx) hstore, ?_, hchange⟩
  rw [Bus.element_one] at hread
  exact UInt8.toBitVec_inj.1 hread

end Cpu

namespace ByteOperation

variable {bigEndian : Bool} {st : State} {vm : Vm} {mem : LinearMemory} {a : Expr}

/-- The operations that write what an operator on bits combines. -/
theorem exec_combine (op : ArithOp) (imm : Nat) {b : UInt8} (hvm : SetUp bigEndian vm) (hx : Shows vm ⟨st, []⟩)
    {addr : Address} (ha : Evals ⟨st, []⟩ a (.word addr)) (hmapped : Bus.Mapped mem addr)
    (hop : op.apply (.ofBitVec (UInt8.ofNat imm).toBitVec byte_pos) (.ofBitVec (Bus.byteAt mem addr).toBitVec byte_pos) =
      .ok (.ofBitVec b.toBitVec byte_pos)) :
    ∃ mem', Machine.exec (.store a (.arith op (immediate .byte imm) (.load 8 a))) ⟨vm, mem⟩ = .ok () ⟨vm, mem'⟩ ∧
      Bus.byteAt mem' addr = b ∧ Bus.ChangesOnly mem mem' addr 1 :=
  exec_storeByte hvm hx ha (.arith hop (Evals.immediateByte imm).on (.loadByte ha hmapped)) hmapped

theorem exec_of_mapped (op : ByteOperation) (hvm : SetUp bigEndian vm) (hx : Shows vm ⟨st, []⟩)
    (ha : ∀ x : Frame, Evals x a (.word (op.address x.toState))) (hmapped : Bus.Mapped mem (op.address st)) :
    let b := Bus.byteAt mem (op.address st)
    ∃ vm' mem' y, Machine.exec (op.effect a) ⟨vm, mem⟩ = .ok () ⟨vm', mem'⟩ ∧ Shows vm' y ∧
      st.ChangesOnly y.toState [Flag.t.var] ∧ y.toState.flag .t = op.condition b (st.flag .t) ∧
      Bus.byteAt mem' (op.address st) = op.result b ∧ Bus.ChangesOnly mem mem' (op.address st) 1 := by
  intro b
  let x : Frame := ⟨st, []⟩
  have hload : EvalsOn bigEndian mem x (.load 8 a) (.bits (.ofBitVec b.toBitVec byte_pos)) := .loadByte (ha x) hmapped
  have hset (t : Bool) : st.ChangesOnly (st.setFlag .t t) [Flag.t.var] :=
    State.ChangesOnly.refl.setFlag (List.mem_cons_self ..) t
  have hflag (t : Bool) : (st.setFlag .t t).flag .t = t := (st.flag_setFlag ..).trans (if_pos rfl)
  cases op with
  | and imm =>
    have hop := Bits.and_ofBitVec (h := byte_pos) (UInt8.ofNat imm).toBitVec b.toBitVec
    obtain ⟨mem', hexec, hbyte, hchange⟩ := exec_combine .and imm (b := UInt8.ofNat imm &&& b) hvm hx (ha x) hmapped hop
    exact ⟨vm, mem', x, hexec, hx, .refl, rfl, hbyte.trans (UInt8.and_comm ..), hchange⟩
  | or imm =>
    have hop := Bits.or_ofBitVec (h := byte_pos) (UInt8.ofNat imm).toBitVec b.toBitVec
    obtain ⟨mem', hexec, hbyte, hchange⟩ := exec_combine .or imm (b := UInt8.ofNat imm ||| b) hvm hx (ha x) hmapped hop
    exact ⟨vm, mem', x, hexec, hx, .refl, rfl, hbyte.trans (UInt8.or_comm ..), hchange⟩
  | xor imm =>
    have hop := Bits.xor_ofBitVec (h := byte_pos) (UInt8.ofNat imm).toBitVec b.toBitVec
    obtain ⟨mem', hexec, hbyte, hchange⟩ := exec_combine .xor imm (b := UInt8.ofNat imm ^^^ b) hvm hx (ha x) hmapped hop
    exact ⟨vm, mem', x, hexec, hx, .refl, rfl, hbyte.trans (UInt8.xor_comm ..), hchange⟩
  | test imm =>
    have hzero : EvalsOn bigEndian mem x (.isZero ((immediate .byte imm).bitAnd (.load 8 a)))
        (.bool ((UInt8.ofNat imm &&& b).toBitVec == 0)) :=
      .isZero (.arith (Bits.and_ofBitVec _ _) (Evals.immediateByte imm).on hload)
    rw [toBitVec_beq_zero, UInt8.and_comm] at hzero
    have hruns : RunsOn bigEndian mem x [Flag.t.assign _] _ := .assign hzero .nil
    obtain ⟨vm', hexec, hx'⟩ := hruns.exec hvm hx
    rw [execAll_singleton] at hexec
    exact ⟨vm', mem, _, hexec, hx', hset _, hflag _, rfl, .refl⟩
  | testAndSet n =>
    let x₁ := x.setTemp "byte" (.bits (.ofBitVec b.toBitVec byte_pos))
    let x₂ := x₁.setFlag .t (b == 0)
    have hzero : Evals x₁ (.isZero (temp "byte")) (.bool (b == 0)) := toBitVec_beq_zero b ▸ (Evals.temp rfl).isZero
    obtain ⟨vm', hfirst, hvm', hx'⟩ := (RunsOn.setTemp hload (.assign hzero.on .nil)).exec_setUp hvm hx
    -- the address is evaluated a second time, when T has been set
    have haddr : Evals x₂ a (.word ((testAndSet n).address st)) := by
      rw [← (testAndSet n).address_setFlag st (b == 0)]
      exact ha x₂
    have hvalue : Evals x₂ ((temp "byte").bitOr (const 8 0x80)) (.bits (.ofBitVec (b ||| 0x80).toBitVec byte_pos)) :=
      (Evals.temp rfl).bitOr (.const 0x80 byte_pos)
    obtain ⟨mem', hstore, hbyte, hchange⟩ := exec_storeByte hvm' hx' haddr hvalue.on hmapped
    refine ⟨vm', mem', x₂, ?_, hx', hset _, hflag _, hbyte, hchange⟩
    rw [effect, exec_sequence]
    show Machine.execAll ([_, _] ++ [_]) _ = _
    rw [execAll_append, execAll_singleton]
    exact (bind_of_ok hfirst).trans hstore

/-- Every operation starts with reading the byte. -/
theorem exec_error (op : ByteOperation) (hvm : SetUp bigEndian vm) (hx : Shows vm ⟨st, []⟩)
    (ha : Evals ⟨st, []⟩ a (.word (op.address st))) {cause : BusError}
    (hcause : Bus.read8 (op.address st) mem = .error cause mem) :
    Machine.exec (op.effect a) ⟨vm, mem⟩ = .error (.error (.bus (op.address st) cause)) ⟨vm, mem⟩ := by
  have hload : FailsOn bigEndian mem ⟨st, []⟩ (.load 8 a) (.bus (op.address st) cause) := by
    have hfirst : FailsOn bigEndian mem ⟨st, []⟩ (.load (1 * 8) a) _ :=
      .load (k := 0) (by decide) ha Nat.one_pos (fun i hi => absurd hi (Nat.not_lt_zero i)) (by rwa [BitVec.add_zero])
    rwa [BitVec.add_zero] at hfirst
  have hcombine (aop : ArithOp) (imm : Nat) :
      FailsOn bigEndian mem ⟨st, []⟩ (.arith aop (immediate .byte imm) (.load 8 a)) (.bus (op.address st) cause) :=
    .arith aop (.immediateByte imm) hload
  cases op with
  | and imm => exact exec_store_error ((hcombine .and imm).eval hvm hx) hvm (ha.eval mem hx)
  | or imm => exact exec_store_error ((hcombine .or imm).eval hvm hx) hvm (ha.eval mem hx)
  | xor imm => exact exec_store_error ((hcombine .xor imm).eval hvm hx) hvm (ha.eval mem hx)
  | test imm => exact exec_set_error ((hcombine .and imm).isZero.eval hvm hx) _
  | testAndSet n =>
    rw [effect, exec_sequence]
    exact bind_of_error (exec_set_error (hload.eval hvm hx) _)

end ByteOperation
end SuperH
