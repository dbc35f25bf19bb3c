import SuperH.Proofs.Lift.Integer
import SuperH.Proofs.Session.Completes

/-!
# Sums and differences that set T

* `Transforms.completes_result` : a call of an instruction that writes a result to a register and sets T;
* `flag_arithmetic` : ADDC, SUBC, NEGC, ADDV, SUBV and DT, by the values before and after the call.
-/

namespace SuperH

open Cpu

variable {bigEndian : Bool} {s : Session} {size : AccessSize} {mnemonic : Mnemonic} {regs : List (Fin 16)}

/-- The call changes the register, in the bank in use, and T. -/
theorem Cpu.Transforms.completes_result {n : Fin 16} {r : State → BitVec 32} {c : State → Bool}
    (h : Transforms [.onRegs mnemonic regs] fun st => (st.setReg n (r st)).setFlag .t (c st))
    (hp : (Insn.onRegs mnemonic regs).Forward) (hsize : size ∈ [.unsized, .long]) (opcode : Nat) (hs : s.Live bigEndian)
    {post : State → Prop}
    (hpost : ∀ st', st'.reg n = r s.regs.state → st'.flag .t = c s.regs.state → post st') {σ : Type} [Bus σ] (bus : σ) :
    s.Completes { Insn.onRegs mnemonic regs with size, opcode } bus bus (s.regs.state.resultNames n) post := by
  have hchange := s.regs.state.changesOnly_setResult n (r s.regs.state) (c s.regs.state)
  exact h.completes hp (Insn.plain_onRegs hsize opcode) hs hchange
    (hpost _ (State.reg_setResult ..) (State.flag_setResult ..)) bus

/-- Whatever the state is, and on every memory, the calls answer and change only Rn in the bank in use, T and the program
counter. The carry of ADDC and the borrow of SUBC and NEGC make up for what the result is cut by; ADDV and SUBV cut the result
and say in T whether the signed result overflows; DT counts down and says in T whether Rn is zero. -/
theorem flag_arithmetic (hs : s.Reachable bigEndian) (hsize : size ∈ [.unsized, .long]) (m n : Fin 16) (opcode : Nat)
    {σ : Type} [Bus σ] (bus : σ) :
    let st := s.regs.state
    let x := st.reg n
    let y := st.reg m
    let carry := (st.flag .t).toNat
    let completes (mnemonic : Mnemonic) (operands : List Operand) (post : State → Prop) :=
      s.Completes ⟨mnemonic, operands, size, opcode⟩ bus bus (st.resultNames n) post
    completes .addc [.reg m, .reg n] (fun st' =>
      (st'.reg n).toNat + 2 ^ 32 * (st'.flag .t).toNat = x.toNat + y.toNat + carry) ∧
    completes .subc [.reg m, .reg n] (fun st' =>
      ((st'.reg n).toNat : Int) - 2 ^ 32 * (st'.flag .t).toNat = x.toNat - y.toNat - carry) ∧
    completes .negc [.reg m, .reg n] (fun st' =>
      ((st'.reg n).toNat : Int) - 2 ^ 32 * (st'.flag .t).toNat = 0 - y.toNat - carry) ∧
    completes .addv [.reg m, .reg n] (fun st' =>
      (st'.reg n).toNat = (x.toNat + y.toNat) % 2 ^ 32 ∧ (st'.flag .t ↔ ¬ FitsSigned 32 (x.toInt + y.toInt))) ∧
    completes .subv [.reg m, .reg n] (fun st' =>
      ((st'.reg n).toNat : Int) = (x.toNat - y.toNat) % 2 ^ 32 ∧ (st'.flag .t ↔ ¬ FitsSigned 32 (x.toInt - y.toInt))) ∧
    completes .dt [.reg n] (fun st' =>
      ((st'.reg n).toNat : Int) = (x.toNat - 1) % 2 ^ 32 ∧ (st'.flag .t ↔ st'.reg n = 0)) := by
  intro st x y carry completes
  have hlive := hs.live
  have hcarry : (st.flagWord .t).toNat = carry := State.toNat_flagWord ..
  have hle : (st.flagWord .t).toNat ≤ 1 := Transforms.flagWord_le st .t
  refine ⟨?addc, ?subc, ?negc, ?addv, ?subv, ?dt⟩
  case addc =>
    refine (Transforms.addc m n).completes_result (.onRegs (by decide) rfl rfl) hsize opcode hlive (fun st' hr ht => ?_) bus
    have hsum := sum_add_carry x y (st.flagWord .t) hle
    rw [hcarry] at hsum
    rw [hr, ht]
    exact hsum
  case subc =>
    refine (Transforms.subc m n).completes_result (.onRegs (by decide) rfl rfl) hsize opcode hlive (fun st' hr ht => ?_) bus
    have hdifference := difference_sub_borrow x y (st.flagWord .t) hle
    rw [hcarry] at hdifference
    rw [hr, ht]
    exact hdifference
  case negc =>
    refine (Transforms.negc m n).completes_result (.onRegs (by decide) rfl rfl) hsize opcode hlive (fun st' hr ht => ?_) bus
    have hdifference := difference_sub_borrow 0#32 y (st.flagWord .t) hle
    rw [hcarry, BitVec.toNat_zero] at hdifference
    rw [hr, ht]
    exact hdifference
  case addv =>
    refine (Transforms.addv m n).completes_result (.onRegs (by decide) rfl rfl) hsize opcode hlive (fun st' hr ht => ?_) bus
    rw [hr, ht, decide_eq_true_iff]
    exact ⟨BitVec.toNat_add .., Iff.rfl⟩
  case subv =>
    refine (Transforms.subv m n).completes_result (.onRegs (by decide) rfl rfl) hsize opcode hlive (fun st' hr ht => ?_) bus
    rw [hr, ht, decide_eq_true_iff]
    refine ⟨?_, Iff.rfl⟩
    show ((x - y).toNat : Int) = _
    bv_omega
  case dt =>
    refine (Transforms.dt n).completes_result (.onRegs (by decide) rfl rfl) hsize opcode hlive (fun st' hr ht => ?_) bus
    rw [hr, ht, beq_iff_eq]
    refine ⟨?_, Iff.rfl⟩
    show ((x - 1).toNat : Int) = _
    bv_omega

/-- The largest word, zero and T add up to a carry, with bank 1 in use. -/
theorem addc_wraps :
    let regs := final (RegisterFile.set "sr" 0x60000001 (RegisterFile.zeros Cpu.profile))
    let s : Session := ⟨Cpu.initialVm true, final (RegisterFile.set "r2b" 0xffffffff regs), lift⟩
    let mem := LinearMemory.zeros 0
    s.Reachable true ∧ AccessSize.long ∈ [.unsized, .long] ∧
      s.Completes ⟨.addc, [.reg 1, .reg 2], .long, 0x321e⟩ mem mem ["r2b", Flag.t.var]
        fun st' => st'.reg 2 = 0 ∧ st'.flag .t := by
  intro regs s mem
  have hs : s.Reachable true := (Session.Reachable.start (Session.sh4_eq true)).write (by decide +kernel)
  have hnames : s.regs.state.resultNames 2 = ["r2b", Flag.t.var] := by decide +kernel
  have hr1 : s.regs.state.reg 1 = 0 := by decide +kernel
  have hr2 : s.regs.state.reg 2 = 0xffffffff := by decide +kernel
  have ht : s.regs.state.flag .t = true := by decide +kernel
  -- with the registers in sight the call would be evaluated
  clear_value s
  have hsize : AccessSize.long ∈ [.unsized, .long] := by decide
  obtain ⟨haddc, -⟩ := flag_arithmetic hs hsize 1 2 0x321e mem
  rw [hnames, hr1, hr2, ht] at haddc
  refine ⟨hs, hsize, haddc.mono fun st' hsum => ?_⟩
  have hwrap : (st'.reg 2).toNat + 2 ^ 32 * (st'.flag .t).toNat = 2 ^ 32 := hsum
  cases hflag : st'.flag .t with
  | false =>
    rw [hflag] at hwrap
    exact absurd hwrap (Nat.ne_of_lt (st'.reg 2).isLt)
  | true =>
    rw [hflag] at hwrap
    exact ⟨by bv_omega, rfl⟩

end SuperH
