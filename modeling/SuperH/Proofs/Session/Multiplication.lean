import SuperH.Proofs.Lift.Multiply
import SuperH.Proofs.Session.Completes

/-!
# Products

* `Transforms.completes_acc`, `Transforms.completes_macl` : a call of an instruction that sets MACH:MACL, or MACL alone;
* `multiplications` : DMULS, DMULU, MUL, MULS and MULU, by the values before the call.
-/

namespace SuperH

open Cpu

variable {bigEndian : Bool} {s : Session} {insn p : Insn} {post : State → Prop} {σ : Type} [Bus σ]

/-- The call changes MACH and MACL, and nothing else. -/
theorem Cpu.Transforms.completes_acc {v : State → BitVec 64} (h : Transforms [p] fun st => st.setAcc (v st)) (hp : p.Forward)
    (hplain : insn.plain = p) (hs : s.Live bigEndian) (hpost : ∀ st', st'.acc = v s.regs.state → post st') (bus : σ) :
    s.Completes insn bus bus ["mach", "macl"] post := by
  have hchange : s.regs.state.ChangesOnly (s.regs.state.setAcc (v s.regs.state)) ["mach", "macl"] :=
    (State.ChangesOnly.refl.setWord (by decide) _).setWord (by decide) _
  exact h.completes hp hplain hs hchange (hpost _ (State.acc_setAcc _ _)) bus

/-- The call changes MACL and nothing else. -/
theorem Cpu.Transforms.completes_macl {v : State → BitVec 32} (h : Transforms [p] fun st => st.setWord maclVar (v st))
    (hsame : SameMeaning insn p) (hm : insn.mnemonic.branches = false) (hs : s.Live bigEndian)
    (hpost : ∀ st', st'.word maclVar = v s.regs.state → post st') (bus : σ) :
    s.Completes insn bus bus ["macl"] post := by
  have hchange : s.regs.state.ChangesOnly (s.regs.state.setWord maclVar (v s.regs.state)) ["macl"] :=
    State.ChangesOnly.refl.setWord (by decide) _
  exact h.completes_of_sameMeaning hsame hm hs hchange (hpost _ (State.word_setWord_self _ _ _)) bus

/-- MULS and MULU take the registers as a whole, whatever their size is. -/
theorem sameMeaning_multiplyWord (mnemonic : Mnemonic) (hm : mnemonic ∈ [.muls, .mulu]) (m n : Fin 16) (size : AccessSize)
    (opcode : Nat) : SameMeaning { Insn.onRegs mnemonic [m, n] with size, opcode } (.onRegs mnemonic [m, n]) := by
  simp only [List.mem_cons, List.not_mem_nil, or_false] at hm
  rcases hm with rfl | rfl <;> exact fun _ _ => rfl

/-- Whatever the state is, and on every memory, the calls answer and change only MACH and MACL, or MACL alone, and the program
counter. DMULS and DMULU give the whole product, MUL its low half, and MULS and MULU the whole product of the low halves. -/
theorem multiplications (hs : s.Reachable bigEndian) {size : AccessSize} (hsize : size ∈ [.unsized, .long]) (m n : Fin 16)
    (opcode : Nat) (bus : σ) :
    let x := s.regs.state.reg n
    let y := s.regs.state.reg m
    let completes (mnemonic : Mnemonic) (size : AccessSize) (changed : List String) (post : State → Prop) :=
      s.Completes ⟨mnemonic, [.reg m, .reg n], size, opcode⟩ bus bus changed post
    completes .dmuls size ["mach", "macl"] (fun st' => st'.acc.toInt = x.toInt * y.toInt) ∧
    completes .dmulu size ["mach", "macl"] (fun st' => st'.acc.toNat = x.toNat * y.toNat) ∧
    completes .mul size ["macl"] (fun st' => (st'.word maclVar).toNat = x.toNat * y.toNat % 2 ^ 32) ∧
    ∀ anySize,
      completes .muls anySize ["macl"] (fun st' =>
        (st'.word maclVar).toInt = (x.setWidth 16).toInt * (y.setWidth 16).toInt) ∧
      completes .mulu anySize ["macl"] (fun st' =>
        (st'.word maclVar).toNat = (x.setWidth 16).toNat * (y.setWidth 16).toNat) := by
  intro x y completes
  have hlive := hs.live
  refine ⟨?dmuls, ?dmulu, ?mul, fun anySize => ⟨?muls, ?mulu⟩⟩
  case dmuls =>
    refine (Transforms.dmuls m n).completes_acc (.onRegs (by decide) rfl rfl) (Insn.plain_onRegs hsize opcode) hlive
      (fun st' hacc => ?_) bus
    rw [hacc, toInt_signExtend_mul _ _ (by decide) (by decide), Int.mul_comm]
  case dmulu =>
    refine (Transforms.dmulu m n).completes_acc (.onRegs (by decide) rfl rfl) (Insn.plain_onRegs hsize opcode) hlive
      (fun st' hacc => ?_) bus
    rw [hacc, toNat_setWidth_mul _ _ (by decide), Nat.mul_comm]
  case mul =>
    have hsame : SameMeaning { Insn.onRegs .mul [m, n] with size, opcode } (.onRegs .mul [m, n]) :=
      sameMeaning_onRegs (by decide) rfl (Insn.plain_onRegs hsize opcode)
    refine (Transforms.mul m n).completes_macl hsame rfl hlive (fun st' hmacl => ?_) bus
    rw [hmacl, BitVec.toNat_mul, Nat.mul_comm]
  case muls =>
    have hsame := sameMeaning_multiplyWord .muls (by decide) m n anySize opcode
    refine (Transforms.muls m n).completes_macl hsame rfl hlive (fun st' hmacl => ?_) bus
    rw [hmacl, toInt_signExtend_mul _ _ (by decide) (by decide), Int.mul_comm]
  case mulu =>
    have hsame := sameMeaning_multiplyWord .mulu (by decide) m n anySize opcode
    refine (Transforms.mulu m n).completes_macl hsame rfl hlive (fun st' hmacl => ?_) bus
    rw [hmacl, toNat_setWidth_mul _ _ (by decide), Nat.mul_comm]

/-- The square of the largest word, which is that of -1 with a sign, with bank 1 in use. -/
theorem squares_of_ones :
    let regs := final (RegisterFile.set "sr" 0x60000000 (RegisterFile.zeros Cpu.profile))
    let s : Session := ⟨Cpu.initialVm true, final (RegisterFile.set "r2b" 0xffffffff regs), lift⟩
    let mem := LinearMemory.zeros 0
    let completes (mnemonic : Mnemonic) (post : State → Prop) :=
      s.Completes ⟨mnemonic, [.reg 2, .reg 2], .long, 0⟩ mem mem ["mach", "macl"] post
    s.Reachable true ∧ AccessSize.long ∈ [.unsized, .long] ∧ completes .dmuls (fun st' => st'.acc.toInt = 1) ∧
      completes .dmulu fun st' => st'.acc.toNat = (2 ^ 32 - 1) ^ 2 := by
  intro regs s mem completes
  have hs : s.Reachable true := (Session.Reachable.start (Session.sh4_eq true)).write (by decide +kernel)
  have hr2 : s.regs.state.reg 2 = 0xffffffff := by decide +kernel
  -- with the registers in sight the calls would be evaluated
  clear_value s
  have hsize : AccessSize.long ∈ [.unsized, .long] := by decide
  obtain ⟨hdmuls, hdmulu, -⟩ := multiplications hs hsize 2 2 0 mem
  rw [hr2] at hdmuls hdmulu
  exact ⟨hs, hsize, hdmuls, hdmulu⟩

end SuperH
