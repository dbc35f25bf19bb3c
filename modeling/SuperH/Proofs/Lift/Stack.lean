import SuperH.Proofs.Lift.PostIncrement
import SuperH.Proofs.Lift.PreDecrement

/-!
# Pushing and popping

* `Insn.Pushes`, `Insn.Pops` : STC.L, STS.L and MOV.L to `@-R15`, and LDC.L, LDS.L and MOV.L from `@R15+`; `lift_push` and
  `lift_pop` are what they mean;
* `execute_push`, `execute_pop` : what they do to the registers and to the memory in privileged mode.
-/

namespace SuperH

open SuperH.Expr SuperH.Effect SuperH.Cpu

/-- The instruction pushes the register on the stack that R15 points to. -/
structure Insn.Pushes (n : Nat) (insn : Insn) : Prop where
  mnemonic : insn.mnemonic ∈ [.stc, .sts, .mov]
  operands : insn.operands = [.reg n, .preDec 15]
  size : insn.size = .long

/-- The instruction pops the register from the stack that R15 points to. -/
structure Insn.Pops (n : Nat) (insn : Insn) : Prop where
  mnemonic : insn.mnemonic ∈ [.ldc, .lds, .mov]
  operands : insn.operands = [.postInc 15, .reg n]
  size : insn.size = .long

/-! ## The meaning -/

variable {insn : Insn} {n : Nat}

theorem read_saved (hn : n ∈ savedRegs) (pc : Nat) :
    Cpu.read (.reg n) .long pc = .ok { value := (slot n).storage.read } := by
  unfold Cpu.read
  dsimp only
  rw [getReg_eq, storage_slot n hn]
  rfl

/-- The effect of a push. -/
def pushEffect (n : Nat) : Effect :=
  .sequence [stackSlot.storage.write (stackPointer.sub (word 4)), .store stackPointer (slot n).storage.read]

/-- The effect of a pop. -/
def popEffect (n : Nat) : Effect :=
  .sequence [(slot n).storage.write (.load (4 * 8) stackPointer), stackSlot.storage.write (stackPointer.add (word 4))]

theorem lift_push (h : insn.Pushes n) (hn : n ∈ savedRegs) (pc : Nat) :
    lift insn pc true = .ok (.effect (pushEffect n)) := by
  obtain ⟨mnemonic, operands, size, opcode⟩ := insn
  obtain ⟨hmnemonic, rfl, rfl⟩ := h
  let cx : Context := ⟨⟨mnemonic, [.reg n, .preDec 15], .long, opcode⟩, pc⟩
  have hmove : Lift.move cx = .ok (pushEffect n) := by
    have hread : cx.read 0 = _ := read_saved hn pc
    have hsize : AccessSize.long.bytes? = some 4 := rfl
    have hwrite : cx.write 1 (slot n).storage.read = .ok (pushEffect n) := write_preDec hsize 15 _ pc
    exact Lift.move_eq rfl rfl hread hwrite
  refine lift_of_privileged (Eq.trans ?_ hmove)
  simp only [List.mem_cons, List.not_mem_nil, or_false] at hmnemonic
  rcases hmnemonic with rfl | rfl | rfl <;> rfl

theorem lift_pop (h : insn.Pops n) (hn : n ∈ savedRegs) (pc : Nat) :
    lift insn pc true = .ok (.effect (popEffect n)) := by
  have hne : 15 ≠ n := by
    rintro rfl
    exact absurd hn (by decide)
  exact lift_loadAndStep (m := 15) h.mnemonic h.operands h.size (storage_slot n hn) hne pc

/-! ## The effect on a state and a memory -/

variable {bigEndian : Bool} {s : Session}

/-- R15 is moved down by four and the value of the register stored there. -/
theorem execute_push (hs : s.Live bigEndian) (hmd : s.regs.state.flag .md = true) (h : insn.Pushes n) (hn : n ∈ savedRegs)
    {mem : LinearMemory} (hmapped : ∀ i < 4, Bus.Mapped mem (s.regs.state.reg 15 - 4 + BitVec.ofNat 32 i)) :
    ∃ s' mem', Computer.execute insn ⟨s, mem⟩ = .ok () ⟨s', mem'⟩ ∧ s'.Live bigEndian ∧
      s'.regs.state = s.regs.state.setReg 15 (s.regs.state.reg 15 - 4) ∧
      Bus.ChangesOnly mem mem' (s.regs.state.reg 15 - 4) 4 ∧
      Bus.element mem' bigEndian 4 (s.regs.state.reg 15 - 4) = (slot n).value s.regs.state := by
  have hvalue : Evals ⟨s.regs.state.retreat 15 4, []⟩ (slot n).storage.read (.word ((slot n).value s.regs.state)) := by
    have hkept : (slot n).value (s.regs.state.retreat 15 4) = (slot n).value s.regs.state := value_setReg_fifteen hn _ _
    exact hkept ▸ Evals.slot (slot n)
  exact execute_storeBelow hs word_pos (by decide) (fun pc => hmd ▸ lift_push h hn pc) hvalue hmapped

/-- The register takes the value that R15 points to, and R15 is moved up by four. -/
theorem execute_pop {σ : Type} [Bus σ] (hs : s.Live bigEndian) (hmd : s.regs.state.flag .md = true) (h : insn.Pops n)
    (hn : n ∈ savedRegs) {bus : σ} (hmapped : ∀ i < 4, Bus.Mapped bus (s.regs.state.reg 15 + BitVec.ofNat 32 i)) :
    ∃ s', Computer.execute insn ⟨s, bus⟩ = .ok () ⟨s', bus⟩ ∧ s'.Live bigEndian ∧
      s'.regs.state = ((slot n).set s.regs.state (Bus.element bus bigEndian 4 (s.regs.state.reg 15))).setReg 15
        (s.regs.state.reg 15 + 4) := by
  have hlift (pc : Nat) : lift insn pc (s.regs.state.flag .md) = .ok (.effect (popEffect n)) := hmd ▸ lift_pop h hn pc
  obtain ⟨s', hcall, hlive, hstate⟩ := execute_loadAndStep (m := 15) hs (storage_slot n hn) hlift hmapped
  refine ⟨s', hcall, hlive, hstate.trans ?_⟩
  rw [State.place_saved _ hn, State.advance, reg_fifteen_set hn]
  rfl

end SuperH
