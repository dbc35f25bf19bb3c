import SuperH.Proofs.Cpu.Loads
import SuperH.Proofs.Cpu.MultiplyAccumulate
import SuperH.Proofs.Lift.Form
import SuperH.Proofs.Lift.OnRegisters

/-!
# Multiply and accumulate, as an instruction

* `Insn.mac` : MAC.L and MAC.W, whose operands name the factors and are stepped over; `lift_mac` is what they mean;
* `State.mac` : what they do to a state, on a memory where the factors are mapped (`execute_mac`).
-/

namespace SuperH

open SuperH.Expr SuperH.Effect SuperH.Cpu

/-- MAC with a step over both factors. -/
def Insn.mac (size : AccessSize) (m n : Fin 16) : Insn where
  mnemonic := .mac
  operands := [.postInc m, .postInc n]
  size

namespace MacForm

/-- The size of a factor. -/
def size : MacForm → AccessSize
  | .long => .long
  | .word => .word

/-- The bytes of a factor. -/
def bytes : MacForm → Nat
  | .long => 4
  | .word => 2

theorem bytes_pos (form : MacForm) : 0 < form.bytes * 8 := by cases form <;> decide

theorem bytes_lt (form : MacForm) : form.bytes * 8 < 2 ^ 32 := by cases form <;> decide

end MacForm

/-! ## The meaning -/

/-- An operand that is loaded and stepped over. -/
theorem Context.read_postInc {cx : Context} {index bytes : Nat} {n : Fin 16} (ho : cx.operand index = .ok (.postInc n))
    (hs : cx.insn.size.bytes? = some bytes) : cx.read index = .ok {
      value := .load (bytes * 8) (generalStorage n).read
      post := some ((generalStorage n).write ((generalStorage n).read.add (word bytes))) } := by
  have haddress : Cpu.address (.postInc n) cx.insn.size cx.pc = .ok (generalStorage n).read := address_general (by simp) _ _
  rw [read_of_operand ho]
  unfold Cpu.read
  dsimp only
  rw [accessBytes_eq hs, accessBits_eq hs, haddress, getReg_general]
  show (do let post ← setReg n _; _ : Build OperandRead) = _
  rw [setReg_general]
  rfl

/-- What MAC means: each factor is loaded before its register is stepped, that of the second operand first. -/
def macEffects (form : MacForm) (m n : Fin 16) : List Effect := [
  setTemp "mac_n" (.load (form.bytes * 8) (generalStorage n).read),
  (generalStorage n).write ((generalStorage n).read.add (word form.bytes)),
  setTemp "mac_m" (.load (form.bytes * 8) (generalStorage m).read),
  (generalStorage m).write ((generalStorage m).read.add (word form.bytes)),
  multiplyAccumulate form (temp "mac_n") (temp "mac_m")]

theorem lift_mac (form : MacForm) (m n : Fin 16) (pc : Nat) (privileged : Bool) :
    lift (Insn.mac form.size m n) pc privileged = .ok (.effect (.sequence (macEffects form m n))) := by
  refine lift_eq pc privileged rfl ?_
  let cx : Context := ⟨Insn.mac form.size m n, pc⟩
  have hbytes : cx.insn.size.bytes? = some form.bytes := by cases form <;> rfl
  have hform : Lift.macForm cx.insn.size = .ok form := by cases form <;> rfl
  have hn : cx.read 1 = .ok _ := Context.read_postInc (n := n) rfl hbytes
  have hm : cx.read 0 = .ok _ := Context.read_postInc (n := m) rfl hbytes
  show Lift.multiplyAndAdd cx = _
  rw [Lift.multiplyAndAdd_eq, hn, hm, hform]
  rfl

/-! ## The effect on a state -/

variable {σ : Type} [Bus σ] {bigEndian : Bool}

namespace Cpu

/-- The factor at an address. -/
def factor (bigEndian : Bool) (bus : σ) (bytes : Nat) (addr : Address) : Int := (Bus.element bus bigEndian bytes addr).toInt

namespace State

/-- A register that is stepped. -/
def advance (st : State) (n : Fin 16) (bytes : Nat) : State := st.setReg n (st.reg n + BitVec.ofNat 32 bytes)

/-- MAC: a register that is used twice is stepped before it is used again. -/
def mac (bigEndian : Bool) (bus : σ) (form : MacForm) (m n : Fin 16) (st : State) : State :=
  let next := st.advance n form.bytes
  let product := factor bigEndian bus form.bytes (st.reg n) * factor bigEndian bus form.bytes (next.reg m)
  (next.advance m form.bytes).setAcc (form.cut (st.flag .s) (BitVec.ofInt 64 product + st.acc))

end State

theorem runs_macEffects (bigEndian : Bool) {st : State} {bus : σ} {form : MacForm} {m n : Fin 16}
    (hn : ∀ i < form.bytes, Bus.Mapped bus (st.reg n + BitVec.ofNat 32 i))
    (hm : ∀ i < form.bytes, Bus.Mapped bus ((st.advance n form.bytes).reg m + BitVec.ofNat 32 i)) :
    ∃ y, RunsOn bigEndian bus ⟨st, []⟩ (macEffects form m n) y ∧ y.toState = st.mac bigEndian bus form m n := by
  let b := Bus.element bus bigEndian form.bytes (st.reg n)
  let a := Bus.element bus bigEndian form.bytes ((st.advance n form.bytes).reg m)
  let x₁ := (Frame.mk st []).setTemp "mac_n" (.bits (.ofBitVec b form.bytes_pos))
  let x₂ := x₁.setReg n (st.reg n + BitVec.ofNat 32 form.bytes)
  let x₃ := x₂.setTemp "mac_m" (.bits (.ofBitVec a form.bytes_pos))
  let x₄ := x₃.setReg m (x₃.reg m + BitVec.ofNat 32 form.bytes)
  have hstep (x : Frame) (k : Fin 16) : Runs x ((generalStorage k).write ((generalStorage k).read.add (word form.bytes)))
      (x.setReg k (x.reg k + BitVec.ofNat 32 form.bytes)) := .setReg ((Evals.reg k).add (.const _ word_pos))
  obtain ⟨y, hmac, hy⟩ := runs_multiplyAccumulate (x := x₄) (n := temp "mac_n") (m := temp "mac_m") form
    (fun _ => .temp rfl) (fun _ => .temp rfl)
  refine ⟨y, .setTemp (.load form.bytes_pos form.bytes_lt (.reg n) hn) (.cons (hstep x₁ n)
    (.setTemp (.load form.bytes_pos form.bytes_lt (.reg m) hm) (.cons (hstep x₃ m) (.cons hmac .nil)))), hy.trans ?_⟩
  have hacc : x₄.acc = st.acc := by
    show ((st.setReg n _).setReg m _).acc = _
    rw [State.acc_setReg, State.acc_setReg]
  rw [hacc]
  rfl

end Cpu

/-- If the factors are mapped, the instruction answers and leaves the memory alone. -/
theorem execute_mac {s : Session} (hs : s.Live bigEndian) {bus : σ} {form : MacForm} {m n : Fin 16}
    (hn : ∀ i < form.bytes, Bus.Mapped bus (s.regs.state.reg n + BitVec.ofNat 32 i))
    (hm : ∀ i < form.bytes, Bus.Mapped bus ((s.regs.state.advance n form.bytes).reg m + BitVec.ofNat 32 i)) :
    ∃ s', Computer.execute (Insn.mac form.size m n) ⟨s, bus⟩ = .ok () ⟨s', bus⟩ ∧ s'.Live bigEndian ∧
      s'.regs.state = s.regs.state.mac bigEndian bus form m n := by
  obtain ⟨y, hruns, hy⟩ := runs_macEffects bigEndian hn hm
  obtain ⟨vm, hexec, hvm⟩ := hruns.exec attached_loadedVm.toSetUp (shows_loadedVm bigEndian hs.profile)
  rw [← exec_sequence] at hexec
  obtain ⟨s', hcall, hlive, hstate⟩ := execute_of_exec hs (lift_mac form m n · _) hexec hvm
  exact ⟨s', hcall, hlive, hstate.trans hy⟩

end SuperH
