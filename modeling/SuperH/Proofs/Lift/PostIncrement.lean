import SuperH.Proofs.Cpu.Place
import SuperH.Proofs.Lift.MultiplyAccumulate

/-!
# Loads that step their register

A source `@Rm+` steps its register after the target has been written. The copy of R0 to R7 that is stepped is chosen then.

* `Cpu.loadAndStep`, `lift_loadAndStep` : what LDC.L, LDS.L and MOV.L from such a source mean;
* `execute_loadAndStep` : what an instruction of that meaning does to the registers.
-/

namespace SuperH

open SuperH.Expr SuperH.Effect SuperH.Cpu

/-- With privilege every instruction has its own meaning. -/
theorem lift_of_privileged {insn : Insn} {pc : Nat} {e : Effect} (h : Lift.effect ⟨insn, pc⟩ = .ok e) :
    lift insn pc true = .ok (.effect e) := by
  unfold lift
  dsimp only
  rw [Bool.not_true, Bool.and_false, h]
  rfl

/-- Loads a word into a register, and steps the register that the address was in. -/
def Cpu.loadAndStep (p : Storage) (m : Fin 16) : Effect :=
  .sequence [p.write (.load (4 * 8) (generalStorage m).read), (generalStorage m).write ((generalStorage m).read.add (word 4))]

variable {insn : Insn} {m : Fin 16} {index : Nat} {p : Storage}

theorem lift_loadAndStep (hmnemonic : insn.mnemonic ∈ [.ldc, .lds, .mov]) (hoperands : insn.operands = [.postInc m, .reg index])
    (hsize : insn.size = .long) (hp : storage index = .ok p) (hne : m.1 ≠ index) (pc : Nat) :
    lift insn pc true = .ok (.effect (loadAndStep p m)) := by
  obtain ⟨mnemonic, operands, size, opcode⟩ := insn
  obtain rfl : operands = _ := hoperands
  obtain rfl : size = _ := hsize
  let cx : Context := ⟨⟨mnemonic, [.postInc m, .reg index], .long, opcode⟩, pc⟩
  have hmove : Lift.move cx = .ok (loadAndStep p m) := by
    have hread : cx.read 0 = _ := Context.read_postInc (n := m) rfl rfl
    have hwrite : cx.write 1 (.load (4 * 8) (generalStorage m).read) =
        .ok (p.write (.load (4 * 8) (generalStorage m).read)) := by
      show setReg index _ = _
      rw [setReg_eq, hp]
      rfl
    refine (Lift.move_eq rfl rfl hread hwrite).trans ?_
    rw [Lift.postOfMove, if_neg hne]
    rfl
  refine lift_of_privileged (Eq.trans ?_ hmove)
  simp only [List.mem_cons, List.not_mem_nil, or_false] at hmnemonic
  rcases hmnemonic with rfl | rfl | rfl <;> rfl

/-- The register of the target takes the word; then the register of the address is stepped, in the bank that is in use after
that. -/
theorem execute_loadAndStep {σ : Type} [Bus σ] {bigEndian : Bool} {s : Session} (hs : s.Live bigEndian)
    (hp : storage index = .ok p)
    (hlift : ∀ pc, lift insn pc (s.regs.state.flag .md) = .ok (.effect (loadAndStep p m))) {bus : σ}
    (hmapped : ∀ i < 4, Bus.Mapped bus (s.regs.state.reg m + BitVec.ofNat 32 i)) :
    ∃ s', Computer.execute insn ⟨s, bus⟩ = .ok () ⟨s', bus⟩ ∧ s'.Live bigEndian ∧
      s'.regs.state = ((s.regs.state.place index).set s.regs.state
        (Bus.element bus bigEndian 4 (s.regs.state.reg m))).advance m 4 := by
  let st := s.regs.state
  let x : Frame := ⟨st, []⟩
  let v : BitVec 32 := Bus.element bus bigEndian 4 (st.reg m)
  let x₁ := x.setSlot v (st.place index)
  have hload : EvalsOn bigEndian bus x (.load (4 * 8) (generalStorage m).read) (.word v) :=
    .load word_pos (by decide) (.reg m) hmapped
  have hstep : Runs x₁ ((generalStorage m).write ((generalStorage m).read.add (word 4))) (x₁.setReg m (x₁.reg m + 4)) :=
    .setReg ((Evals.reg m).add (.const 4 word_pos))
  have hruns : RunsOn bigEndian bus x [p.write (.load (4 * 8) (generalStorage m).read),
      (generalStorage m).write ((generalStorage m).read.add (word 4))] _ := .setPlace hp hload (.cons hstep .nil)
  obtain ⟨vm, hexec, hvm⟩ := hruns.exec attached_loadedVm.toSetUp (shows_loadedVm bigEndian hs.profile)
  rw [← exec_sequence] at hexec
  obtain ⟨s', hcall, hlive, hstate⟩ := execute_of_exec hs hlift hexec hvm
  refine ⟨s', hcall, hlive, hstate.trans ?_⟩
  show x₁.toState.setReg m (x₁.toState.reg m + 4) = _
  rw [Frame.toState_setSlot]
  rfl

end SuperH
