import SuperH.Proofs.Cpu.Loads
import SuperH.Proofs.Lift.OnRegisters
import SuperH.Proofs.Vm.Write

/-!
# Stores below a register

A target `@-Rn` moves its register down by the size of the access before the value is stored at the address in it.

* `Cpu.storeBelow`, `write_preDec` : what writing such a target means, at every access size;
* `execute_storeBelow` : what an instruction of that meaning does to the registers and to the memory. The value that it
  stores is the one that the source has when the register has been moved;
* `lift_moveBelow`, `execute_moveBelow` : MOV from a register to such a target.
-/

namespace SuperH

open SuperH.Expr SuperH.Effect SuperH.Cpu

variable {size : AccessSize} {bytes : Nat} {n : Fin 16}

/-! ## The meaning -/

namespace Cpu

/-- Moves a register down and stores a value at the address in it. -/
def storeBelow (bytes : Nat) (n : Fin 16) (value : Expr) : Effect :=
  .sequence [(generalStorage n).write ((generalStorage n).read.sub (word bytes)), .store (generalStorage n).read value]

theorem write_preDec (hsize : size.bytes? = some bytes) (n : Fin 16) (value : Expr) (pc : Nat) :
    Cpu.write (.preDec n) value size pc = .ok (storeBelow bytes n value) := by
  have haddress : Cpu.address (.preDec n) size pc = .ok (generalStorage n).read := address_general (by simp) _ _
  have hread : Cpu.read (.preDec n) size pc = .ok {
      pre := some ((generalStorage n).write ((generalStorage n).read.sub (word bytes)))
      value := .load (bytes * 8) (generalStorage n).read } := by
    unfold Cpu.read
    dsimp only
    rw [accessBytes_eq hsize, accessBits_eq hsize, getReg_general, haddress]
    show (do let pre ← setReg n ((generalStorage n).read.sub (word bytes)); _ : Build OperandRead) = _
    rw [setReg_general]
    rfl
  unfold Cpu.write
  dsimp only
  rw [hread, haddress]
  rfl

end Cpu

/-- The source is read as an expression, which is evaluated after the register has been moved. -/
theorem lift_moveBelow (hsize : size.bytes? = some bytes) (m n : Fin 16) (opcode pc : Nat) (privileged : Bool) :
    lift ⟨.mov, [.reg m, .preDec n], size, opcode⟩ pc privileged =
      .ok (.effect (storeBelow bytes n (lowBits size (generalStorage m).read))) := by
  refine lift_eq pc privileged rfl ?_
  let cx : Context := ⟨⟨.mov, [.reg m, .preDec n], size, opcode⟩, pc⟩
  have hread : cx.read 0 = .ok { value := lowBits size (generalStorage m).read } := by
    show Cpu.read (.reg m) size pc = _
    unfold Cpu.read
    dsimp only
    rw [getReg_general]
    rfl
  have hwrite : cx.write 1 (lowBits size (generalStorage m).read) = _ := write_preDec hsize n _ pc
  exact Lift.move_eq rfl rfl hread hwrite

/-! ## The effect on a state and a memory -/

namespace Cpu

/-- The low bits of a register have the size of the access. -/
theorem Evals.lowBits {x : Frame} {e : Expr} {a : BitVec 32} (hsize : size.bytes? = some bytes) (h : Evals x e (.word a)) :
    Evals x (Cpu.lowBits size e) (.bits (.ofBitVec (a.setWidth (bytes * 8)) (AccessSize.bytes_pos hsize))) := by
  cases size with
  | unsized => cases hsize
  | byte =>
    cases hsize
    exact h.unsigned _
  | word =>
    cases hsize
    exact h.unsigned _
  | long =>
    cases hsize
    show Evals x e (.bits (.ofBitVec (a.setWidth 32) _))
    rwa [BitVec.setWidth_eq]

/-- A register that is moved down. -/
def State.retreat (st : State) (n : Fin 16) (bytes : Nat) : State := st.setReg n (st.reg n - BitVec.ofNat 32 bytes)

end Cpu

variable {bigEndian : Bool} {s : Session} {insn : Insn} {value : Expr}

/-- The register is moved down and the value stored there, which is the one that the source has after the move. -/
theorem execute_storeBelow (hs : s.Live bigEndian) (hpos : 0 < bytes * 8) (hlt : bytes < 2 ^ 32)
    (hlift : ∀ pc, lift insn pc (s.regs.state.flag .md) = .ok (.effect (storeBelow bytes n value)))
    {v : BitVec (bytes * 8)} (hvalue : Evals ⟨s.regs.state.retreat n bytes, []⟩ value (.bits (.ofBitVec v hpos)))
    {mem : LinearMemory}
    (hmapped : ∀ i < bytes, Bus.Mapped mem (s.regs.state.reg n - BitVec.ofNat 32 bytes + BitVec.ofNat 32 i)) :
    ∃ s' mem', Computer.execute insn ⟨s, mem⟩ = .ok () ⟨s', mem'⟩ ∧ s'.Live bigEndian ∧
      s'.regs.state = s.regs.state.retreat n bytes ∧
      Bus.ChangesOnly mem mem' (s.regs.state.reg n - BitVec.ofNat 32 bytes) bytes ∧
      Bus.element mem' bigEndian bytes (s.regs.state.reg n - BitVec.ofNat 32 bytes) = v := by
  let st := s.regs.state
  let x : Frame := ⟨st, []⟩
  let x₁ : Frame := ⟨st.retreat n bytes, []⟩
  have hmove : Runs x ((generalStorage n).write ((generalStorage n).read.sub (word bytes))) x₁ :=
    .setReg ((Evals.reg n).sub (.const bytes word_pos))
  have haddr : Evals x₁ (generalStorage n).read (.word (st.reg n - BitVec.ofNat 32 bytes)) := by
    have hreg : x₁.reg n = st.reg n - BitVec.ofNat 32 bytes := by
      show (st.setReg n _).reg n = _
      rw [State.reg_setReg, if_pos rfl]
    exact hreg ▸ Evals.reg n
  obtain ⟨mem', hstore, hchange, hread⟩ := Vm.store_eq (vmConfig bigEndian) (v := v) hpos hlt hmapped
  obtain ⟨vm₁, hfirst, hx₁⟩ := hmove.exec mem (shows_loadedVm bigEndian hs.profile)
  have hvm₁ : SetUp bigEndian vm₁ := attached_loadedVm.toSetUp.of_exec hfirst
  have hlast := exec_store hvm₁ (haddr.eval mem hx₁) (hvalue.eval mem hx₁) hstore
  have hexec : Machine.exec (storeBelow bytes n value) ⟨loadedVm bigEndian s.regs, mem⟩ = .ok () ⟨vm₁, mem'⟩ := by
    rw [storeBelow, exec_sequence]
    exact (bind_of_ok hfirst).trans ((bind_of_ok hlast).trans rfl)
  obtain ⟨s', hcall, hlive, hstate⟩ := execute_of_exec hs hlift hexec hx₁
  exact ⟨s', mem', hcall, hlive, hstate, hchange, hread⟩

/-- MOV stores the low bits that the source has after the move. -/
theorem execute_moveBelow (hs : s.Live bigEndian) (hsize : size.bytes? = some bytes) (m n : Fin 16) (opcode : Nat)
    {mem : LinearMemory}
    (hmapped : ∀ i < bytes, Bus.Mapped mem (s.regs.state.reg n - BitVec.ofNat 32 bytes + BitVec.ofNat 32 i)) :
    ∃ s' mem', Computer.execute ⟨.mov, [.reg m, .preDec n], size, opcode⟩ ⟨s, mem⟩ = .ok () ⟨s', mem'⟩ ∧
      s'.Live bigEndian ∧ s'.regs.state = s.regs.state.retreat n bytes ∧
      Bus.ChangesOnly mem mem' (s.regs.state.reg n - BitVec.ofNat 32 bytes) bytes ∧
      Bus.element mem' bigEndian bytes (s.regs.state.reg n - BitVec.ofNat 32 bytes) =
        ((s.regs.state.retreat n bytes).reg m).setWidth (bytes * 8) :=
  execute_storeBelow hs (AccessSize.bytes_pos hsize) (AccessSize.bytes_lt hsize)
    (fun pc => lift_moveBelow hsize m n opcode pc _) (.lowBits hsize (.reg m)) hmapped

end SuperH
