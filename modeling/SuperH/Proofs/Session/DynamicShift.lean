import SuperH.Proofs.Lift.DynamicShift
import SuperH.Proofs.Session.Completes

/-!
# Shifts by an amount in a register

* `Transforms.completes_reg` : a call of an instruction that writes a result to a register and does nothing else;
* `dynamic_shifts` : SHAD and SHLD, by the values before the call.
-/

namespace SuperH

open Cpu

variable {bigEndian : Bool} {s : Session} {size : AccessSize} {σ : Type} [Bus σ]

/-- The call changes the register, in the bank in use, and nothing else. -/
theorem Cpu.Transforms.completes_reg {mnemonic : Mnemonic} {regs : List (Fin 16)} {n : Fin 16} {r : State → BitVec 32}
    (h : Transforms [.onRegs mnemonic regs] fun st => st.setReg n (r st)) (hp : (Insn.onRegs mnemonic regs).Forward)
    (hsize : size ∈ [.unsized, .long]) (opcode : Nat) (hs : s.Live bigEndian) {post : State → Prop}
    (hpost : ∀ st', st'.reg n = r s.regs.state → post st') (bus : σ) :
    s.Completes { Insn.onRegs mnemonic regs with size, opcode } bus bus [(State.generalVar s.regs.state.bank1 n).1] post := by
  refine h.completes hp (Insn.plain_onRegs hsize opcode) hs (State.ChangesOnly.refl.setReg (List.mem_cons_self ..) _)
    (hpost _ ?_) bus
  rw [State.reg_setReg, if_pos rfl]

/-- Whatever the state is, and on every memory, the calls answer and change only Rn in the bank in use and the program counter.
An amount that is not negative shifts to the left by its remainder modulo 32, and a negative one to the right by 32 less the
remainder: SHAD divides the signed value, SHLD the unsigned one, and a remainder of zero shifts out all the bits. -/
theorem dynamic_shifts (hs : s.Reachable bigEndian) (hsize : size ∈ [.unsized, .long]) (m n : Fin 16) (opcode : Nat)
    (bus : σ) :
    let st := s.regs.state
    let x := st.reg n
    let y := st.reg m
    let k := y.toNat % 32
    let completes (mnemonic : Mnemonic) (post : State → Prop) :=
      s.Completes ⟨mnemonic, [.reg m, .reg n], size, opcode⟩ bus bus [(State.generalVar st.bank1 n).1] post
    completes .shad (fun st' =>
      (y.toInt ≥ 0 → (st'.reg n).toNat = x.toNat * 2 ^ k % 2 ^ 32) ∧
      (y.toInt < 0 → ((st'.reg n).toNat : Int) = x.toInt / 2 ^ (32 - k) % 2 ^ 32)) ∧
    completes .shld (fun st' =>
      (y.toInt ≥ 0 → (st'.reg n).toNat = x.toNat * 2 ^ k % 2 ^ 32) ∧
      (y.toInt < 0 → (st'.reg n).toNat = x.toNat / 2 ^ (32 - k))) := by
  intro st x y k completes
  have hlive := hs.live
  refine ⟨?shad, ?shld⟩
  case shad =>
    refine (Transforms.shad m n).completes_reg (.onRegs (by decide) rfl rfl) hsize opcode hlive (fun st' hr => ?_) bus
    rw [hr]
    refine ⟨toNat_dynamicShift_of_nonneg x, fun hneg => ?_⟩
    rw [dynamicShift_of_neg _ hneg, toNat_eq_toInt_emod, BitVec.toInt_sshiftRight, Int.shiftRight_eq_div_pow,
      Int.natCast_pow]
    rfl
  case shld =>
    refine (Transforms.shld m n).completes_reg (.onRegs (by decide) rfl rfl) hsize opcode hlive (fun st' hr => ?_) bus
    rw [hr]
    refine ⟨toNat_dynamicShift_of_nonneg x, fun hneg => ?_⟩
    rw [dynamicShift_of_neg _ hneg]
    exact (BitVec.toNat_ushiftRight ..).trans (Nat.shiftRight_eq_div_pow ..)

/-- The word with only its sign is shifted by itself to the right by all of its places, with bank 1 in use. -/
theorem shifted_out :
    let regs := final (RegisterFile.set "sr" 0x60000000 (RegisterFile.zeros Cpu.profile))
    let s : Session := ⟨Cpu.initialVm true, final (RegisterFile.set "r2b" 0x80000000 regs), lift⟩
    let mem := LinearMemory.zeros 0
    let leaves (mnemonic : Mnemonic) (r : BitVec 32) :=
      s.Completes ⟨mnemonic, [.reg 2, .reg 2], .long, 0⟩ mem mem ["r2b"] fun st' => st'.reg 2 = r
    s.Reachable true ∧ AccessSize.long ∈ [.unsized, .long] ∧ leaves .shad 0xffffffff ∧ leaves .shld 0 := by
  intro regs s mem leaves
  have hs : s.Reachable true := (Session.Reachable.start (Session.sh4_eq true)).write (by decide +kernel)
  have hname : (State.generalVar s.regs.state.bank1 2).1 = "r2b" := by decide +kernel
  have hr2 : s.regs.state.reg 2 = 0x80000000 := by decide +kernel
  -- with the registers in sight the calls would be evaluated
  clear_value s
  have hsize : AccessSize.long ∈ [.unsized, .long] := by decide
  obtain ⟨hshad, hshld⟩ := dynamic_shifts hs hsize 2 2 0 mem
  rw [hname, hr2] at hshad hshld
  refine ⟨hs, hsize, hshad.mono fun st' hr => ?_, hshld.mono fun st' hr => ?_⟩
  · have hout : ((st'.reg 2).toNat : Int) = (0xffffffff#32).toNat := hr.2 (by decide)
    exact BitVec.eq_of_toNat_eq (Int.ofNat.inj hout)
  · exact BitVec.eq_of_toNat_eq (hr.2 (by decide))

end SuperH
