import SuperH.Proofs.Cpu.Loads
import SuperH.Proofs.Cpu.Status

/-!
# Registers that exist once

* `Cpu.Slot` : the flags together, or the variable of a register; `Slot.value` and `Slot.set` read and write it in a state
  (`Slot.value_set_value`, `Slot.value_set_of_ne`);
* `Evals.slot`, `exec_setSlot` : so do the expressions and the effects of its storage;
* `savedRegs`, `slot` : R8 to R14 and the control registers, and the slot of each;
* `stackSlot`, `stackPointer` : R15, and the address in it.
-/

namespace SuperH

/-- The value of SR as a word. -/
def FlagSet.word (flags : FlagSet) : BitVec 32 := BitVec.ofNat 32 flags.pack.toNat

theorem FlagSet.ofBitVec_word (flags : FlagSet) : .ofBitVec flags.word Expr.word_pos = flags.pack := by
  have hlt : flags.pack.toNat < 2 ^ 32 := flags.pack.toNat_lt
  rw [word, Bits.ofBitVec_ofNat]
  refine Bits.ext_toNat rfl ?_
  rw [Bits.toNat_ofNat, Nat.mod_eq_of_lt hlt]

theorem FlagSet.unpack_word (flags : FlagSet) : unpack (.ofBitVec flags.word Expr.word_pos) = flags := by
  rw [ofBitVec_word, unpack_pack]

theorem FlagSet.word_inj {flags flags' : FlagSet} (h : flags.word = flags'.word) : flags = flags' := by
  rw [← unpack_word flags, h, unpack_word]

namespace Cpu

open SuperH.Expr SuperH.Effect

/-- Where a register lives that exists once. -/
inductive Slot where
  /-- the flags, which make up the status register -/
  | status
  | own (name : WordVar)
  deriving DecidableEq

namespace Slot

def storage : Slot → Storage
  | status => .status
  | own name => .own name

/-- The value of the register. -/
def value (st : State) : Slot → BitVec 32
  | status => FlagSet.word st.flag
  | own name => st.word name

/-- The state with another value of the register. -/
def set (st : State) (v : BitVec 32) : Slot → State
  | status => { st with flag := FlagSet.unpack (.ofBitVec v word_pos) }
  | own name => st.setWord name v

variable {s t : Slot} (st st' : State) (v : BitVec 32)

/-- A value that the register had is restored. -/
theorem value_set_value : s.value (s.set st (s.value st')) = s.value st' := by
  cases s with
  | status => exact congrArg FlagSet.word (FlagSet.unpack_word _)
  | own name => exact Function.update_self ..

theorem value_set_of_ne (h : t ≠ s) : t.value (s.set st v) = t.value st := by
  cases s with
  | status =>
    cases t with
    | status => exact absurd rfl h
    | own name => rfl
  | own name =>
    cases t with
    | status => rfl
    | own name' => exact Function.update_of_ne (fun heq => h (congrArg own heq)) ..

/-- A flag that the restored value has, too, stays set. -/
theorem flag_set_value {flag : Flag} (h : st.flag flag = true) (h' : st'.flag flag = true) :
    (s.set st (s.value st')).flag flag = true := by
  cases s with
  | status => exact (congrFun (FlagSet.unpack_word _) flag).trans h'
  | own name => exact h

end Slot

/-! ## Reading and writing -/

variable {x : Frame} {e : Expr} {s : Slot} {v : BitVec 32}

theorem Evals.slot (s : Slot) : Evals x s.storage.read (.word (s.value x.toState)) := by
  cases s with
  | status =>
    show Evals x SuperH.statusExpr (.bits (.ofBitVec (FlagSet.word x.flag) word_pos))
    rw [FlagSet.ofBitVec_word]
    exact .statusExpr
  | own name => exact .global name

/-- The state at some point of an instruction, with another value of the register. -/
def Frame.setSlot (x : Frame) (v : BitVec 32) : Slot → Frame
  | .status => { (x.setTemp "sr_val" (.word v)) with flag := FlagSet.unpack (.ofBitVec v word_pos) }
  | .own name => x.setWord name v

theorem Frame.toState_setSlot : (x.setSlot v s).toState = s.set x.toState v := by
  cases s <;> rfl

theorem Shows.setStatus {vm : Vm} (hx : Shows vm x) : Shows { vm with
    temps := ("sr_val", .word v) :: vm.temps
    globals := setFlags vm.globals (FlagSet.unpack (.ofBitVec v word_pos)) } (x.setSlot v .status) where
  word name := (lookup_setFlags_of_ne fun flag => (flagVar_ne flag name).symm).trans (hx.word name)
  flag flag := lookup_setFlags (hx.flag flag)
  temps := congrArg _ hx.temps

variable {σ : Type} [Bus σ] {bus : σ}

theorem exec_setSlot {vm : Vm} (hx : Shows vm x) (h : vm.eval e bus = .ok (.word v) bus) :
    ∃ vm', Machine.exec (s.storage.write e) ⟨vm, bus⟩ = .ok () ⟨vm', bus⟩ ∧ Shows vm' (x.setSlot v s) := by
  cases s with
  | status => exact ⟨_, exec_setStatus_of_eval h hx, hx.setStatus⟩
  | own name => exact ⟨_, exec_setGlobal h (hx.word name) rfl, hx.replace_word name v⟩

/-! ## Indices -/

/-- R8 to R14 and the control registers. -/
def savedRegs : List Nat := [8, 9, 10, 11, 12, 13, 14, sr, gbr, ssr, spc, sgr, dbr, vbr, mach, macl, pr]

/-- The slot of one of them. -/
def slot (n : Nat) : Slot :=
  if n = sr then .status
  else if h : (regName? n).getD "" ∈ wordNames then .own ⟨_, h⟩ else .status

theorem storage_slot : ∀ n ∈ savedRegs, storage n = .ok (slot n).storage := by decide

theorem slot_inj : ∀ m ∈ savedRegs, ∀ n ∈ savedRegs, slot m = slot n → m = n := by decide

theorem slot_own {n : Nat} {name : WordVar} (h : regName? n = some name.1) : slot n = .own name := by
  have hn : n ≠ sr := by
    rintro rfl
    have hsr : "sr" ∉ wordNames := by decide
    exact hsr (Option.some.inj h ▸ name.2)
  have hname : (regName? n).getD "" = name := by rw [h, Option.getD_some]
  have hmem : (regName? n).getD "" ∈ wordNames := hname ▸ name.2
  rw [slot, if_neg hn, dif_pos hmem]
  exact congrArg Slot.own (Subtype.ext hname)

/-! ## The stack pointer -/

/-- R15. -/
def stackSlot : Slot := .own (State.generalVar false 15)

/-- The address in R15. -/
def stackPointer : Expr := stackSlot.storage.read

theorem slot_ne_stackSlot : ∀ n ∈ savedRegs, slot n ≠ stackSlot := by decide

theorem reg_fifteen (st : State) : st.reg 15 = stackSlot.value st :=
  congrArg st.word (generalVar_of_unbanked 15 (by decide) st.bank1)

theorem setReg_fifteen (st : State) (v : BitVec 32) : st.setReg 15 v = stackSlot.set st v :=
  congrArg (st.setWord · v) (generalVar_of_unbanked 15 (by decide) st.bank1)

/-- Moving the stack pointer leaves the other registers alone. -/
theorem value_setReg_fifteen {n : Nat} (hn : n ∈ savedRegs) (st : State) (v : BitVec 32) :
    (slot n).value (st.setReg 15 v) = (slot n).value st := by
  rw [setReg_fifteen]
  exact Slot.value_set_of_ne _ _ (slot_ne_stackSlot n hn)

/-- They leave the stack pointer alone. -/
theorem reg_fifteen_set {n : Nat} (hn : n ∈ savedRegs) (st : State) (v : BitVec 32) :
    ((slot n).set st v).reg 15 = st.reg 15 := by
  rw [reg_fifteen, reg_fifteen]
  exact Slot.value_set_of_ne _ _ (slot_ne_stackSlot n hn).symm

end Cpu
end SuperH
