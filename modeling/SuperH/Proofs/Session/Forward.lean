import SuperH.Proofs.Lift.OnRegisters
import SuperH.Proofs.Lift.Straight

/-!
# Programs that run forward

* `Session.Live.pc_eq` : the program counter of a session of the machine;
* `pc_execute`, `exists_pc_execute`, `pc_executeAll` : an instruction that is no branch moves it on by two bytes, and a
  program of such instructions by two bytes for each of them;
* `Insn.Forward`, `Transforms.run_forward` : what a program on general registers does to the state and to the program
  counter, whatever the words of its instructions, and with or without the size of a register in them.
-/

namespace SuperH

open Cpu

variable {σ : Type} [Bus σ] {bigEndian : Bool} {s : Session} {insn : Insn} {insns : List Insn} {bus : σ}

theorem Session.Live.pc_eq (hs : s.Live bigEndian) : s.pc = .ok (BitVec.ofNat 32 (s.regs.content pcReg)) := by
  unfold Session.pc
  rw [Cpu.pc_eq hs.profile]
  rfl

theorem pc_execute (hs : s.Live bigEndian) (hm : insn.mnemonic.branches = false) {t : Computer σ}
    (hcall : Computer.execute insn ⟨s, bus⟩ = .ok () t) :
    t.session.regs.content pcReg = (s.regs.content pcReg + insnBytes) % 2 ^ 32 := by
  obtain ⟨lifted, m, hlift, hstep, rfl⟩ := hs.execute_eq_ok hcall
  have hattached := ready_loadedVm.step_lifted hlift insnBytes bus
  rw [hstep] at hattached
  have hmoved := Machine.step_straight (lift_straight hm (liftFor_eq_ok.1 hlift)) rfl hstep
  have hpc : (loadedVm bigEndian s.regs).pc.toNat = s.regs.content pcReg :=
    Bits.toNat_ofNat.trans (Nat.mod_eq_of_lt RegisterFile.content_lt)
  show (writeBack m.vm s.regs).content pcReg = _
  rw [Attached.content_pc_writeBack hattached hs.profile, hmoved, hpc]
  rfl

theorem exists_pc_execute (hs : s.Live bigEndian) (hm : insn.mnemonic.branches = false) {t : Computer σ}
    (hcall : Computer.execute insn ⟨s, bus⟩ = .ok () t) : ∃ pc, s.pc = .ok pc ∧ t.session.pc = .ok (pc + 2) := by
  have hlive := hs.execute insn bus
  rw [hcall] at hlive
  refine ⟨_, hs.pc_eq, (Session.Live.pc_eq hlive).trans (congrArg Except.ok ?_)⟩
  have htwo : (2 : BitVec 32) = BitVec.ofNat 32 insnBytes := rfl
  show BitVec.ofNat 32 (t.session.regs.content pcReg) = _
  rw [pc_execute hs hm hcall, htwo, ← BitVec.ofNat_add]
  apply BitVec.eq_of_toNat_eq
  rw [BitVec.toNat_ofNat, BitVec.toNat_ofNat, Nat.mod_mod]

/-- A program without branches that runs through moves the program counter on by its length. -/
theorem pc_executeAll (hs : s.Live bigEndian) (hm : ∀ insn ∈ insns, insn.mnemonic.branches = false)
    (hrun : (Computer.executeAll insns ⟨s, bus⟩).1 = List.replicate insns.length (.ok ())) :
    (Computer.executeAll insns ⟨s, bus⟩).2.session.regs.content pcReg =
      (s.regs.content pcReg + insnBytes * insns.length) % 2 ^ 32 := by
  induction insns generalizing s bus with
  | nil => exact (Nat.mod_eq_of_lt RegisterFile.content_lt).symm
  | cons insn insns ih =>
    obtain ⟨hfirst, hrest⟩ := List.cons.inj hrun
    have hcall := eq_ok_iff.2 ⟨hfirst, rfl⟩
    have hpc := pc_execute hs (hm insn (List.mem_cons_self ..)) hcall
    have hlive := hs.execute insn bus
    refine (ih hlive (fun i hi => hm i (List.mem_cons_of_mem _ hi)) hrest).trans ?_
    rw [hpc, List.length_cons, Nat.mod_add_mod, Nat.mul_succ]
    congr 1
    omega

/-- An instruction on general registers that is no branch, and that an access size changes nothing about if it is the size of
a register. -/
inductive Insn.Forward : Insn → Prop
  | onRegs {mnemonic : Mnemonic} {regs : List (Fin 16)} : mnemonic ≠ .invalid → mnemonic.sized = false →
      mnemonic.branches = false → Forward (.onRegs mnemonic regs)
  | onHalves {mnemonic : Mnemonic} {regs : List (Fin 16)} : mnemonic ≠ .invalid → mnemonic.branches = false →
      Forward (.onHalves mnemonic regs)

namespace Insn.Forward

variable {p : Insn}

theorem branches (h : p.Forward) : p.mnemonic.branches = false := by
  cases h with
  | onRegs _ _ hm => exact hm
  | onHalves _ hm => exact hm

theorem sameMeaning (h : p.Forward) (hplain : insn.plain = p) : SameMeaning insn p := by
  cases h with
  | onRegs hi hm _ => exact sameMeaning_onRegs hi hm hplain
  | onHalves hi _ => exact sameMeaning_onHalves hi hplain

theorem of_mem_replicate (h : p.Forward) {q : Insn} {n : Nat} (hq : q ∈ List.replicate n p) : q.Forward :=
  List.eq_of_mem_replicate hq ▸ h

end Insn.Forward

/-- A program of the machine, in any form that its instructions are handed over in. -/
theorem Cpu.Transforms.run_forward {program : List Insn} {f : State → State} (h : Transforms program f)
    (hinsns : insns.map Insn.plain = program) (hprogram : ∀ p ∈ program, p.Forward) (hs : s.Live bigEndian) (bus : σ) :
    ∃ s', Computer.executeAll insns ⟨s, bus⟩ = (List.replicate program.length (.ok ()), ⟨s', bus⟩) ∧
      s'.regs.state = f s.regs.state ∧
      ∃ pc, s.pc = .ok pc ∧ s'.pc = .ok (pc + BitVec.ofNat 32 (insnBytes * program.length)) := by
  subst hinsns
  obtain ⟨s', hrun, hlive, hstate⟩ := h.run bus hs
  have hforward : ∀ insn ∈ insns, insn.plain.Forward := fun insn hi => hprogram _ (List.mem_map_of_mem hi)
  have hsame : List.Forall₂ SameMeaning insns (insns.map Insn.plain) := by
    rw [List.forall₂_map_right_iff, List.forall₂_same]
    exact fun insn hi => (hforward insn hi).sameMeaning rfl
  rw [← executeAll_of_sameMeaning hsame hs bus, List.length_map] at hrun
  have hpc := pc_executeAll hs (fun insn hi => (hforward insn hi).branches) (congrArg Prod.fst hrun)
  rw [hrun] at hpc
  rw [List.length_map]
  refine ⟨s', hrun, hstate, _, hs.pc_eq, hlive.pc_eq.trans (congrArg Except.ok ?_)⟩
  rw [hpc]
  apply BitVec.eq_of_toNat_eq
  simp only [BitVec.toNat_ofNat, BitVec.toNat_add]
  omega

end SuperH
