import Mathlib.Logic.Function.Basic
import SuperH.Proofs.Bits.BitVec
import SuperH.Proofs.Cpu.Attached

/-!
# The registers by value

* `Cpu.State` : a word for each register that is not made up of flags, and the flags; `RegisterFile.state` reads it off
  the registers. The program counter is not a part of it;
* `State.reg`, `State.setReg`, `State.setFlag` : R0 to R15 as operands name them, so that the bank in use counts;
* `State.setResult` : a result in such a register and in T;
* `State.ChangesOnly st st' names` : all but the named variables have their values;
* `Cpu.Shows` : an interpreter whose variables hold a state, as the loaded one does (`shows_loadedVm`), and whose state
  the registers hold after writing back (`Attached.state_writeBack`).
-/

namespace SuperH

/-- A word as a value. -/
def Value.word (v : BitVec 32) : Value := .bits (.ofBitVec v Expr.word_pos)

namespace Cpu

/-! ## States -/

/-- The registers of 32 bits that are variables of their own. -/
def wordNames : List String := generalNames ++ controlNames.tail ++ bankNames

/-- A register of 32 bits. -/
abbrev WordVar := {name : String // name ∈ wordNames}

theorem exists_wordReg : ∀ name ∈ wordNames, ∃ r ∈ boundRegs, r.name = name ∧ r.size = 32 := by decide

/-- The values of the registers. -/
@[ext] structure State where
  word : WordVar → BitVec 32
  flag : Flag → Bool

namespace State

/-- The variables of R0 to R15, with the second copies of R0 to R7 if bank 1 is in use. -/
def names (bank1 : Bool) : List String := if bank1 then bankNames ++ generalNames.drop bankedCount else generalNames

theorem length_names (bank1 : Bool) : (names bank1).length = 16 := by cases bank1 <;> rfl

theorem names_subset : ∀ bank1, ∀ name ∈ names bank1, name ∈ wordNames := by decide

/-- The variable of a general register. -/
def generalVar (bank1 : Bool) (n : Fin 16) : WordVar :=
  let name := (names bank1).get (n.cast (length_names bank1).symm)
  ⟨name, names_subset bank1 name (List.get_mem ..)⟩

theorem generalVar_inj {bank1 : Bool} {m n : Fin 16} : generalVar bank1 m = generalVar bank1 n ↔ m = n := by
  have hall : ∀ bank1, (names bank1).Nodup := by decide
  rw [Subtype.ext_iff, Fin.ext_iff]
  exact (hall bank1).get_inj_iff.trans Fin.ext_iff

variable (st : State)

/-- Bank 1 is in use. -/
def bank1 : Bool := st.flag .md && st.flag .rb

def reg (n : Fin 16) : BitVec 32 := st.word (generalVar st.bank1 n)

def setWord (name : WordVar) (v : BitVec 32) : State := { st with word := Function.update st.word name v }

def setReg (n : Fin 16) (v : BitVec 32) : State := st.setWord (generalVar st.bank1 n) v

def setFlag (flag : Flag) (b : Bool) : State := { st with flag := Function.update st.flag flag b }

/-- The value of a flag as a word. -/
def flagWord (flag : Flag) : BitVec 32 := if st.flag flag then 1 else 0

theorem word_setWord_self (name : WordVar) (v : BitVec 32) : (st.setWord name v).word name = v := Function.update_self ..

theorem word_setWord_of_ne {name name' : WordVar} (h : name' ≠ name) (v : BitVec 32) :
    (st.setWord name v).word name' = st.word name' := Function.update_of_ne h ..

@[simp] theorem flag_setReg (n : Fin 16) (v : BitVec 32) (flag : Flag) : (st.setReg n v).flag flag = st.flag flag := rfl

@[simp] theorem flag_setFlag (flag : Flag) (b : Bool) (f : Flag) :
    (st.setFlag flag b).flag f = if f = flag then b else st.flag f := Function.update_apply ..

@[simp] theorem setFlag_setFlag (flag : Flag) (b b' : Bool) : (st.setFlag flag b).setFlag flag b' = st.setFlag flag b' := by
  unfold setFlag
  rw [Function.update_idem]

@[simp] theorem bank1_setFlag {flag : Flag} (hmd : flag ≠ .md) (hrb : flag ≠ .rb) (b : Bool) :
    (st.setFlag flag b).bank1 = st.bank1 := by
  simp [bank1, hmd.symm, hrb.symm]

@[simp] theorem reg_setReg (m : Fin 16) (v : BitVec 32) (n : Fin 16) :
    (st.setReg m v).reg n = if n = m then v else st.reg n := by
  unfold reg setReg setWord
  simp only [Function.update_apply]
  exact if_congr generalVar_inj rfl rfl

theorem setReg_self (n : Fin 16) : st.setReg n (st.reg n) = st := by
  unfold setReg setWord reg
  rw [Function.update_eq_self]

theorem setReg_setReg (n : Fin 16) (v w : BitVec 32) : (st.setReg n v).setReg n w = st.setReg n w :=
  congrArg (State.mk · st.flag) (Function.update_idem ..)

theorem toNat_flagWord (flag : Flag) : (st.flagWord flag).toNat = (st.flag flag).toNat := by
  unfold flagWord
  cases st.flag flag <;> rfl

/-- A flag comes in at the lowest place of a word that moves up. -/
theorem toNat_shl_or_flagWord (n : BitVec 32) (flag : Flag) :
    (n <<< 1 ||| st.flagWord flag).toNat = (2 * n.toNat + (st.flag flag).toNat) % 2 ^ 32 := by
  have hadd : n <<< 1 ||| st.flagWord flag = n <<< 1 + st.flagWord flag := by
    symm
    apply BitVec.add_eq_or_of_and_eq_zero
    unfold flagWord
    split
    · ext i hi
      cases i <;> simp
    · simp
  rw [hadd, BitVec.toNat_add, BitVec.toNat_shiftLeft, toNat_flagWord, Nat.shiftLeft_eq, Nat.mod_add_mod, Nat.mul_comm]

/-- Of the flags only MD and RB say which copy of a register is in use. -/
@[simp] theorem reg_setFlag {flag : Flag} (hmd : flag ≠ .md) (hrb : flag ≠ .rb) (b : Bool) (n : Fin 16) :
    (st.setFlag flag b).reg n = st.reg n := by
  rw [reg, bank1_setFlag st hmd hrb]
  rfl

/-! ## Results -/

section

variable (n : Fin 16) (v v' : BitVec 32) (b b' : Bool)

/-- A result in a register and in T. -/
def setResult : State := (st.setReg n v).setFlag .t b

@[simp] theorem reg_setResult : (st.setResult n v b).reg n = v := by
  rw [setResult, reg_setFlag _ (by decide) (by decide), reg_setReg, if_pos rfl]

@[simp] theorem flag_setResult : (st.setResult n v b).flag .t = b := by
  rw [setResult, flag_setFlag, if_pos rfl]

/-- T does not say which copy of a register is in use. -/
theorem setReg_setFlag : (st.setFlag .t b).setReg n v = st.setResult n v b := by
  unfold setReg
  rw [bank1_setFlag st (by decide) (by decide)]
  rfl

theorem setResult_setResult : (st.setResult n v b).setResult n v' b' = st.setResult n v' b' := by
  have hreg : (st.setResult n v b).setReg n v' = st.setResult n v' b := by
    rw [setResult, setReg_setFlag, setResult, setReg_setReg]
    rfl
  rw [setResult, hreg, setResult, setFlag_setFlag]
  rfl

theorem setResult_self : st.setResult n (st.reg n) (st.flag .t) = st := by
  rw [setResult, setReg_self]
  exact congrArg (State.mk st.word) (Function.update_eq_self ..)

end

/-! ## What is left alone -/

/-- All but the named variables have the same values. -/
structure ChangesOnly (st st' : State) (names : List String) : Prop where
  word : ∀ var : WordVar, var.1 ∉ names → st'.word var = st.word var
  flag : ∀ flag : Flag, flag.var ∉ names → st'.flag flag = st.flag flag

namespace ChangesOnly

variable {st st' : State} {names : List String}

theorem refl : st.ChangesOnly st names := ⟨fun _ _ => rfl, fun _ _ => rfl⟩

theorem setWord (h : st.ChangesOnly st' names) {name : WordVar} (hmem : name.1 ∈ names) (v : BitVec 32) :
    st.ChangesOnly (st'.setWord name v) names where
  word var hvar := by
    have hne : var ≠ name := by
      rintro rfl
      exact hvar hmem
    exact (word_setWord_of_ne _ hne v).trans (h.word var hvar)
  flag := h.flag

theorem setReg (h : st.ChangesOnly st' names) {n : Fin 16} (hmem : (generalVar st'.bank1 n).1 ∈ names) (v : BitVec 32) :
    st.ChangesOnly (st'.setReg n v) names := h.setWord hmem v

theorem setFlag (h : st.ChangesOnly st' names) {flag : Flag} (hmem : flag.var ∈ names) (b : Bool) :
    st.ChangesOnly (st'.setFlag flag b) names where
  word := h.word
  flag f hf := by
    have hne : f ≠ flag := by
      rintro rfl
      exact hf hmem
    rw [flag_setFlag, if_neg hne]
    exact h.flag f hf

end ChangesOnly

/-- The variables that an instruction changes which writes a register and sets T. -/
def resultNames (st : State) (n : Fin 16) : List String := [(State.generalVar st.bank1 n).1, Flag.t.var]

theorem changesOnly_setResult (st : State) (n : Fin 16) (v : BitVec 32) (b : Bool) :
    st.ChangesOnly (st.setResult n v b) (st.resultNames n) :=
  (ChangesOnly.refl.setReg (List.mem_cons_self ..) v).setFlag (List.mem_cons_of_mem _ (List.mem_cons_self ..)) b

end State

end Cpu

/-! ## The state of a register file -/

namespace RegisterFile

/-- The value of the register of that name; no register counts as zero. -/
def number (regs : RegisterFile) (name : String) : Nat :=
  match regs.get name with
  | .ok (some v) => v
  | _ => 0

def state (regs : RegisterFile) : Cpu.State where
  word name := BitVec.ofNat 32 (regs.number name)
  flag flag := regs.number flag.var = 1

end RegisterFile

namespace Cpu

variable {bigEndian : Bool} {regs : RegisterFile} {vm : Vm}

theorem number_eq_content (hp : regs.profile = profile) {r : Register} (hr : r ∈ boundRegs) (hsize : r.size ≤ 64) :
    regs.number r.name = regs.content r := by
  rw [RegisterFile.number, get_eq hp (boundRegs_known r hr) hsize]

/-! ## The state of an interpreter -/

/-- The state at some point of an instruction, with the variables of the instruction. -/
structure Frame extends State where
  temps : Env := []

namespace Frame

variable (x : Frame)

def setTemp (name : String) (v : Value) : Frame := { x with temps := (name, v) :: x.temps }

def setWord (name : WordVar) (v : BitVec 32) : Frame := { x with toState := x.toState.setWord name v }

def setReg (n : Fin 16) (v : BitVec 32) : Frame := { x with toState := x.toState.setReg n v }

def setFlag (flag : Flag) (b : Bool) : Frame := { x with toState := x.toState.setFlag flag b }

end Frame

/-- The interpreter's variables hold the values of the state. -/
structure Shows (vm : Vm) (x : Frame) : Prop where
  word : ∀ name : WordVar, vm.get? name = some (.word (x.word name))
  flag : ∀ flag : Flag, vm.get? flag.var = some (.bool (x.flag flag))
  temps : vm.temps = x.temps

theorem Shows.privileged {x : Frame} (hx : Shows vm x) : vm.privileged = x.flag .md := by
  rw [Vm.privileged, hx.flag]

theorem shows_loadedVm (bigEndian : Bool) (hp : regs.profile = profile) : Shows (loadedVm bigEndian regs) ⟨regs.state, []⟩ where
  word name := by
    obtain ⟨r, hr, hname, hsize⟩ := exists_wordReg name name.2
    have hne : r.size ≠ 1 := by omega
    have hpos : 0 < r.size := by omega
    rw [← hname, get?_loadedVm hr, RegisterFile.value, if_neg hne, dif_pos hpos, Value.word]
    refine congrArg (fun v => some (Value.bits v)) (Bits.ext_toNat hsize ?_)
    show _ = (Bits.ofBitVec (BitVec.ofNat 32 (regs.number name)) Expr.word_pos).toNat
    rw [Bits.toNat_ofNat, Bits.toNat_ofBitVec, BitVec.toNat_ofNat, ← hname, number_eq_content hp hr (by omega), hsize]
  flag flag := by
    rw [get?_flag, ← number_eq_content hp (flagReg_mem flag) (by decide : 1 ≤ 64)]
    rfl
  temps := rfl

theorem Attached.state_writeBack (h : Attached bigEndian vm) {x : Frame} (hx : Shows vm x)
    (hp : regs.profile = profile) : (writeBack vm regs).state = x.toState := by
  have hp' : (writeBack vm regs).profile = profile := profile_writeBack.trans hp
  have hnumber : ∀ r ∈ boundRegs, r.size ≤ 64 → (writeBack vm regs).number r.name = Sync.number vm r.name :=
    fun r hr hsize => (number_eq_content hp' hr hsize).trans (h.content_writeBack hp hr)
  have hword : ∀ name : WordVar, (writeBack vm regs).number name = (x.word name).toNat := by
    intro name
    obtain ⟨r, hr, hname, hsize⟩ := exists_wordReg name name.2
    rw [← hname, hnumber r hr (by omega), hname, Sync.number_eq (hx.word name)]
    exact Bits.toNat_ofBitVec _
  have hflag : ∀ flag : Flag, (writeBack vm regs).number flag.var = (x.flag flag).toNat := by
    intro flag
    refine (hnumber _ (flagReg_mem flag) (by decide : 1 ≤ 64)).trans ?_
    exact (Sync.number_eq (hx.flag flag)).trans Bits.toNat_ofBool
  apply State.ext
  · funext name
    show BitVec.ofNat 32 ((writeBack vm regs).number name) = x.word name
    rw [hword, BitVec.ofNat_toNat, BitVec.setWidth_eq]
  · funext flag
    show decide ((writeBack vm regs).number flag.var = 1) = x.flag flag
    rw [hflag]
    cases x.flag flag <;> rfl

end Cpu
end SuperH
