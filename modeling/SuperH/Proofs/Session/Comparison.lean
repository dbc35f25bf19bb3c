import SuperH.Proofs.Lift.Compare
import SuperH.Proofs.Session.Completes

/-!
# Comparisons

* `Transforms.completes_flag` : a call of an instruction that sets T and does nothing else;
* `comparisons` : the comparisons of two registers and of a register with zero, and TST, by the values before the call.
-/

namespace SuperH

open Cpu

variable {bigEndian : Bool} {s : Session} {size : AccessSize}

/-- The call changes T and nothing else. -/
theorem Cpu.Transforms.completes_flag {mnemonic : Mnemonic} {regs : List (Fin 16)} {c : State → Bool}
    (h : Transforms [.onRegs mnemonic regs] fun st => st.setFlag .t (c st)) (hp : (Insn.onRegs mnemonic regs).Forward)
    (hsize : size ∈ [.unsized, .long]) (opcode : Nat) (hs : s.Live bigEndian) {p : Prop} (hc : c s.regs.state = true ↔ p)
    {σ : Type} [Bus σ] (bus : σ) :
    s.Completes { Insn.onRegs mnemonic regs with size, opcode } bus bus [Flag.t.var] fun st' => (st'.flag .t ↔ p) := by
  refine h.completes hp (Insn.plain_onRegs hsize opcode) hs (State.ChangesOnly.refl.setFlag (List.mem_cons_self ..) _) ?_ bus
  rw [State.flag_setFlag, if_pos rfl]
  exact hc

/-- Whatever the state is, and on every memory, the calls answer and change only T and the program counter. T says how Rn
compares with Rm, or with zero: HS and HI by the unsigned order, GE, GT, PZ and PL by the signed one. STR looks for a byte that
they have in common, TST for a bit. -/
theorem comparisons (hs : s.Reachable bigEndian) (hsize : size ∈ [.unsized, .long]) (m n : Fin 16) (opcode : Nat)
    {σ : Type} [Bus σ] (bus : σ) :
    let x := s.regs.state.reg n
    let y := s.regs.state.reg m
    let sets (mnemonic : Mnemonic) (operands : List Operand) (p : Prop) :=
      s.Completes ⟨mnemonic, operands, size, opcode⟩ bus bus [Flag.t.var] fun st' => (st'.flag .t ↔ p)
    sets .cmpEq [.reg m, .reg n] (x = y) ∧
    sets .cmpHs [.reg m, .reg n] (x.toNat ≥ y.toNat) ∧
    sets .cmpGe [.reg m, .reg n] (x.toInt ≥ y.toInt) ∧
    sets .cmpHi [.reg m, .reg n] (x.toNat > y.toNat) ∧
    sets .cmpGt [.reg m, .reg n] (x.toInt > y.toInt) ∧
    sets .cmpStr [.reg m, .reg n] (∃ i < 4, x.extractLsb' (8 * i) 8 = y.extractLsb' (8 * i) 8) ∧
    sets .tst [.reg m, .reg n] (x &&& y = 0) ∧
    sets .cmpPz [.reg n] (x.toInt ≥ 0) ∧
    sets .cmpPl [.reg n] (x.toInt > 0) := by
  intro x y sets
  have hlive := hs.live
  refine ⟨?eq, ?hs, ?ge, ?hi, ?gt, ?str, ?tst, ?pz, ?pl⟩
  case eq =>
    have heq : decide (y = x) = true ↔ x = y := decide_eq_true_iff.trans eq_comm
    exact (Transforms.cmpEq m n).completes_flag (.onRegs (by decide) rfl rfl) hsize opcode hlive heq bus
  case hs =>
    exact (Transforms.cmpHs m n).completes_flag (.onRegs (by decide) rfl rfl) hsize opcode hlive decide_eq_true_iff bus
  case ge =>
    exact (Transforms.cmpGe m n).completes_flag (.onRegs (by decide) rfl rfl) hsize opcode hlive decide_eq_true_iff bus
  case hi =>
    exact (Transforms.cmpHi m n).completes_flag (.onRegs (by decide) rfl rfl) hsize opcode hlive decide_eq_true_iff bus
  case gt =>
    exact (Transforms.cmpGt m n).completes_flag (.onRegs (by decide) rfl rfl) hsize opcode hlive decide_eq_true_iff bus
  case str =>
    have hcommon : commonByte y x = true ↔ ∃ i < 4, x.extractLsb' (8 * i) 8 = y.extractLsb' (8 * i) 8 :=
      commonByte_iff.trans (exists_congr fun i => and_congr_right fun _ => eq_comm)
    exact (Transforms.cmpStr m n).completes_flag (.onRegs (by decide) rfl rfl) hsize opcode hlive hcommon bus
  case tst =>
    have hnone : (y &&& x == 0) = true ↔ x &&& y = 0 := by rw [beq_iff_eq, BitVec.and_comm]
    exact (Transforms.tst m n).completes_flag (.onRegs (by decide) rfl rfl) hsize opcode hlive hnone bus
  case pz =>
    exact (Transforms.cmpPz n).completes_flag (.onRegs (by decide) rfl rfl) hsize opcode hlive decide_eq_true_iff bus
  case pl =>
    exact (Transforms.cmpPl n).completes_flag (.onRegs (by decide) rfl rfl) hsize opcode hlive decide_eq_true_iff bus

/-- The word with only its sign is above zero as a number without a sign and below it with one, with bank 1 in use; both have
bytes of zeros. -/
theorem orders_disagree :
    let regs := final (RegisterFile.set "sr" 0x60000000 (RegisterFile.zeros Cpu.profile))
    let s : Session := ⟨Cpu.initialVm true, final (RegisterFile.set "r2b" 0x80000000 regs), lift⟩
    let mem := LinearMemory.zeros 0
    let sets (mnemonic : Mnemonic) (t : Bool) :=
      s.Completes ⟨mnemonic, [.reg 1, .reg 2], .long, 0⟩ mem mem [Flag.t.var] fun st' => st'.flag .t = t
    s.Reachable true ∧ AccessSize.long ∈ [.unsized, .long] ∧ sets .cmpHi true ∧ sets .cmpGt false ∧ sets .cmpStr true := by
  intro regs s mem sets
  have hs : s.Reachable true := (Session.Reachable.start (Session.sh4_eq true)).write (by decide +kernel)
  have hr1 : s.regs.state.reg 1 = 0 := by decide +kernel
  have hr2 : s.regs.state.reg 2 = 0x80000000 := by decide +kernel
  -- with the registers in sight the calls would be evaluated
  clear_value s
  have hsize : AccessSize.long ∈ [.unsized, .long] := by decide
  obtain ⟨-, -, -, hhi, hgt, hstr, -⟩ := comparisons hs hsize 1 2 0 mem
  rw [hr1, hr2] at hhi hgt hstr
  refine ⟨hs, hsize, hhi.mono fun st' ht => ht.2 (by decide), hgt.mono fun st' ht => ?_, hstr.mono fun st' ht => ?_⟩
  · exact Bool.eq_false_iff.2 fun htrue => absurd (ht.1 htrue) (by decide)
  · exact ht.2 ⟨0, by decide, rfl⟩

end SuperH
