import Mathlib.Data.List.Forall2
import SuperH.Proofs.Lift.Stack

/-!
# Saving registers on the stack

* `Bus.Stacked` : the words below an address, from the highest place down;
* `executeAll_push`, `executeAll_pop` : what pushing several registers leaves on the stack, and what popping them in the
  reverse order makes of the registers, by induction on the list of registers;
* `stack_roundTrip` : registers that were saved are restored, whatever became of them in the meantime.
-/

namespace SuperH

open SuperH.Cpu

/-- The words right below an address, each below the one before. -/
def Bus.Stacked {σ : Type} [Bus σ] (bigEndian : Bool) (bus : σ) : Address → List (BitVec 32) → Prop
  | _, [] => True
  | sp, v :: vs => Bus.element bus bigEndian 4 (sp - 4) = v ∧ Bus.Stacked bigEndian bus (sp - 4) vs

namespace Cpu

/-- The address below `count` words on the stack. -/
def below (sp : Address) (count : Nat) : Address := sp - BitVec.ofNat 32 (4 * count)

theorem below_zero (sp : Address) : below sp 0 = sp := BitVec.sub_zero _

theorem below_succ (sp : Address) (count : Nat) : below sp (count + 1) = below (sp - 4) count := by
  unfold below
  bv_omega

/-- The word above several ones on the stack. -/
theorem below_add (sp : Address) (count i : Nat) : below sp count + BitVec.ofNat 32 (4 * count + i) = sp + BitVec.ofNat 32 i := by
  unfold below
  bv_omega

theorem le_sub_of_le_sub_below {sp a : Address} {count : Nat} (hcount : 4 * (count + 1) < 2 ^ 32)
    (h : 4 * (count + 1) ≤ (a - below sp count).toNat) : 4 ≤ (a - sp).toNat := by
  unfold below at h
  bv_omega

end Cpu

variable {bigEndian : Bool} {s : Session} {ns : List Nat} {insns : List Insn}

/-- The registers are stored one below the other, and nothing else is changed. -/
theorem executeAll_push (h : List.Forall₂ Insn.Pushes ns insns) (hns : ∀ n ∈ ns, n ∈ savedRegs) (hs : s.Live bigEndian)
    (hmd : s.regs.state.flag .md = true) (hlength : 4 * ns.length < 2 ^ 32) {mem : LinearMemory}
    (hmapped : ∀ i < 4 * ns.length, Bus.Mapped mem (below (s.regs.state.reg 15) ns.length + BitVec.ofNat 32 i)) :
    ∃ s' mem', Computer.executeAll insns ⟨s, mem⟩ = (List.replicate ns.length (.ok ()), ⟨s', mem'⟩) ∧ s'.Live bigEndian ∧
      s'.regs.state = s.regs.state.setReg 15 (below (s.regs.state.reg 15) ns.length) ∧
      Bus.ChangesOnly mem mem' (below (s.regs.state.reg 15) ns.length) (4 * ns.length) ∧
      Bus.Stacked bigEndian mem' (s.regs.state.reg 15) (ns.map fun n => (slot n).value s.regs.state) := by
  induction h generalizing s mem with
  | nil =>
    refine ⟨s, mem, rfl, hs, ?_, .refl, trivial⟩
    rw [List.length_nil, below_zero, State.setReg_self]
  | @cons n insn ns insns hpush _ ih =>
    obtain ⟨hn, hns⟩ := List.forall_mem_cons.1 hns
    rw [List.length_cons, below_succ] at hmapped ⊢
    rw [List.length_cons] at hlength
    have hfirst : ∀ i < 4, Bus.Mapped mem (s.regs.state.reg 15 - 4 + BitVec.ofNat 32 i) := by
      intro i hi
      rw [← below_add _ ns.length]
      exact hmapped _ (by omega)
    obtain ⟨s₁, mem₁, hcall, hs₁, hst₁, hchange₁, hread⟩ := execute_push hs hmd hpush hn hfirst
    have hsp₁ : s₁.regs.state.reg 15 = s.regs.state.reg 15 - 4 := by rw [hst₁, State.reg_setReg, if_pos rfl]
    have hmapped₁ : ∀ i < 4 * ns.length, Bus.Mapped mem₁ (below (s₁.regs.state.reg 15) ns.length + BitVec.ofNat 32 i) := by
      intro i hi
      rw [hchange₁.mapped, hsp₁]
      exact hmapped i (by omega)
    obtain ⟨s₂, mem₂, hrest, hs₂, hst₂, hchange₂, hstack⟩ := ih hns hs₁ (by rw [hst₁]; exact hmd) (by omega) hmapped₁
    have hvalues : (ns.map fun n => (slot n).value s₁.regs.state) = ns.map fun n => (slot n).value s.regs.state :=
      List.map_congr_left fun m hm => by rw [hst₁, value_setReg_fifteen (hns m hm)]
    rw [hsp₁] at hst₂ hchange₂ hstack
    refine ⟨s₂, mem₂, ?_, hs₂, ?_, ?_, ?_, ?_⟩
    · simp only [Computer.executeAll, hcall, List.replicate_succ]
      show (_ :: (Computer.executeAll insns ⟨s₁, mem₁⟩).1, (Computer.executeAll insns ⟨s₁, mem₁⟩).2) = _
      rw [hrest]
      rfl
    · rw [hst₂, hst₁, State.setReg_setReg]
    · exact hchange₁.trans hchange₂ (fun a => le_sub_of_le_sub_below hlength) fun a ha => by omega
    · -- the words that follow are stored below this one
      rw [hchange₂.element fun i hi => by rw [← below_add _ ns.length]; bv_omega, hread]
    · exact hvalues ▸ hstack

/-- Popped in the reverse order, the registers take the values on the stack. -/
theorem executeAll_pop {σ : Type} [Bus σ] (h : List.Forall₂ Insn.Pops ns insns) (hns : ∀ n ∈ ns, n ∈ savedRegs)
    (hnodup : ns.Nodup) {st : State} (hst : st.flag .md = true) {sp : Address} (hs : s.Live bigEndian)
    (hmd : s.regs.state.flag .md = true) (hsp : s.regs.state.reg 15 = below sp ns.length) {bus : σ}
    (hmapped : ∀ i < 4 * ns.length, Bus.Mapped bus (below sp ns.length + BitVec.ofNat 32 i))
    (hstack : Bus.Stacked bigEndian bus sp (ns.map fun n => (slot n).value st)) :
    ∃ s', Computer.executeAll insns.reverse ⟨s, bus⟩ = (List.replicate ns.length (.ok ()), ⟨s', bus⟩) ∧
      s'.Live bigEndian ∧ s'.regs.state.flag .md = true ∧ s'.regs.state.reg 15 = sp ∧
      ∀ n ∈ ns, (slot n).value s'.regs.state = (slot n).value st := by
  induction h generalizing sp with
  | nil => exact ⟨s, rfl, hs, hmd, hsp.trans (below_zero sp), nofun⟩
  | @cons n insn ns insns hpop _ ih =>
    obtain ⟨hn, hns⟩ := List.forall_mem_cons.1 hns
    obtain ⟨hnew, hnodup⟩ := List.nodup_cons.1 hnodup
    obtain ⟨htop, hstack⟩ := hstack
    rw [List.length_cons, below_succ] at hmapped hsp
    obtain ⟨s₁, hrun, hs₁, hmd₁, hsp₁, hvalues⟩ := ih hns hnodup hsp (fun i hi => hmapped i (by omega)) hstack
    have hlast : ∀ i < 4, Bus.Mapped bus (s₁.regs.state.reg 15 + BitVec.ofNat 32 i) := by
      intro i hi
      rw [hsp₁, ← below_add _ ns.length]
      exact hmapped _ (by omega)
    obtain ⟨s₂, hcall, hs₂, hst₂⟩ := execute_pop hs₁ hmd₁ hpop hn hlast
    rw [hsp₁, htop] at hst₂
    refine ⟨s₂, ?_, hs₂, ?_, ?_, ?_⟩
    · rw [List.reverse_cons, Computer.executeAll_append, hrun]
      simp only [Computer.executeAll, hcall, List.length_cons, List.replicate_succ']
      rfl
    · rw [hst₂]
      exact Slot.flag_set_value _ _ hmd₁ hst
    · rw [hst₂, State.reg_setReg, if_pos rfl, BitVec.sub_add_cancel]
    · refine List.forall_mem_cons.2 ⟨?_, fun m hm => ?_⟩
      · rw [hst₂, value_setReg_fifteen hn, Slot.value_set_value]
      · have hne : slot m ≠ slot n := fun heq => hnew (slot_inj m (hns m hm) n hn heq ▸ hm)
        rw [hst₂, value_setReg_fifteen (hns m hm), Slot.value_set_of_ne _ _ hne, hvalues m hm]

/-- Registers that are pushed on the stack and popped in the reverse order have the values again that they had, whatever
the registers were set to in between, if the stack pointer and the privilege are as the pushes left them. Neither the
order of the registers nor the byte orders of the session and of the memory matter, and all calls answer. -/
theorem stack_roundTrip (hs : s.Reachable bigEndian) (hmd : s.regs.state.flag .md = true) (hnodup : ns.Nodup)
    (hns : ∀ n ∈ ns, n ∈ savedRegs) {pushes pops : List Insn} (hpush : List.Forall₂ Insn.Pushes ns pushes)
    (hpop : List.Forall₂ Insn.Pops ns.reverse pops) {mem : LinearMemory}
    (hmapped : ∀ i, 1 ≤ i → i ≤ 4 * ns.length → Bus.Mapped mem (s.regs.state.reg 15 - BitVec.ofNat 32 i)) :
    ∃ s₁ mem₁, Computer.executeAll pushes ⟨s, mem⟩ = (List.replicate ns.length (.ok ()), ⟨s₁, mem₁⟩) ∧
      s₁.regs.state = s.regs.state.setReg 15 (s.regs.state.reg 15 - BitVec.ofNat 32 (4 * ns.length)) ∧
      ∀ regs : RegisterFile, regs.profile = Cpu.profile → regs.state.reg 15 = s₁.regs.state.reg 15 →
        regs.state.flag .md = true →
        ∃ s₂, Computer.executeAll pops ⟨{ s₁ with regs }, mem₁⟩ = (List.replicate ns.length (.ok ()), ⟨s₂, mem₁⟩) ∧
          s₂.regs.state.reg 15 = s.regs.state.reg 15 ∧ (sr ∈ ns → s₂.regs.state.flag = s.regs.state.flag) ∧
          ∀ n ∈ ns, ∀ name : WordVar, regName? n = some name.1 → s₂.regs.state.word name = s.regs.state.word name := by
  have hlength : 4 * ns.length < 2 ^ 32 := by
    have hle : ns.length ≤ savedRegs.length := (List.subperm_of_subset hnodup hns).length_le
    have hcount : savedRegs.length = 17 := rfl
    omega
  have hmapped' : ∀ i < 4 * ns.length, Bus.Mapped mem (below (s.regs.state.reg 15) ns.length + BitVec.ofNat 32 i) := by
    intro i hi
    have haddr : below (s.regs.state.reg 15) ns.length + BitVec.ofNat 32 i =
        s.regs.state.reg 15 - BitVec.ofNat 32 (4 * ns.length - i) := by
      unfold below
      bv_omega
    rw [haddr]
    exact hmapped _ (by omega) (by omega)
  obtain ⟨s₁, mem₁, hrun, hs₁, hst₁, hchange, hstack⟩ := executeAll_push hpush hns hs.live hmd hlength hmapped'
  refine ⟨s₁, mem₁, hrun, hst₁, fun regs hprofile hsp hmd₁ => ?_⟩
  have hlive : ({ s₁ with regs } : Session).Live bigEndian := ⟨hs₁.lifter, hprofile, hs₁.ready⟩
  have hpops : List.Forall₂ Insn.Pops ns pops.reverse := by
    rwa [← List.forall₂_reverse_iff, List.reverse_reverse]
  have hsp₁ : regs.state.reg 15 = below (s.regs.state.reg 15) ns.length := by
    rw [hsp, hst₁, State.reg_setReg, if_pos rfl]
  have hmapped₁ := fun i hi => (hchange.mapped _).2 (hmapped' i hi)
  obtain ⟨s₂, hback, -, -, hsp₂, hvalues⟩ := executeAll_pop hpops hns hnodup hmd hlive hmd₁ hsp₁ hmapped₁ hstack
  rw [List.reverse_reverse] at hback
  refine ⟨s₂, hback, hsp₂, fun hsr => ?_, fun n hn name hname => ?_⟩
  · exact FlagSet.word_inj (hvalues sr hsr)
  · have hvalue := hvalues n hn
    rwa [slot_own hname] at hvalue

/-- SR is saved between R8 and PR, and restored over a T that was lost. -/
theorem stack_roundTrip_status :
    let regs := final (RegisterFile.set "sr" 0x40000001 (RegisterFile.zeros Cpu.profile))
    let s : Session :=
      ⟨Cpu.initialVm true, final (RegisterFile.set "r8" 0x12345678 (final (RegisterFile.set "r15" 16 regs))), lift⟩
    let other := final (RegisterFile.set "sr" 0x40000000 (final (RegisterFile.set "r15" 4 (RegisterFile.zeros Cpu.profile))))
    let pushes : List Insn := [⟨.mov, [.reg 8, .preDec 15], .long, 0x2f86⟩, ⟨.stc, [.reg sr, .preDec 15], .long, 0x4f03⟩,
      ⟨.sts, [.reg pr, .preDec 15], .long, 0x4f22⟩]
    let pops : List Insn := [⟨.lds, [.postInc 15, .reg pr], .long, 0x4f26⟩, ⟨.ldc, [.postInc 15, .reg sr], .long, 0x4f07⟩,
      ⟨.mov, [.postInc 15, .reg 8], .long, 0x68f6⟩]
    s.Reachable true ∧
      ∃ s₁ mem s₂, Computer.executeAll pushes ⟨s, LinearMemory.zeros 16⟩ = (List.replicate 3 (.ok ()), ⟨s₁, mem⟩) ∧
        Computer.executeAll pops ⟨{ s₁ with regs := other }, mem⟩ = (List.replicate 3 (.ok ()), ⟨s₂, mem⟩) ∧
        s₂.regs.state.reg 15 = 16 ∧ other.state.flag .t = false ∧ s₂.regs.state.flag .t = true ∧
        s₂.regs.state.word (State.generalVar false 8) = 0x12345678 := by
  intro regs s other pushes pops
  have hs : s.Reachable true := (Session.Reachable.start (Session.sh4_eq true)).write (by decide +kernel)
  have hmd : s.regs.state.flag .md = true := by decide +kernel
  have ht : s.regs.state.flag .t = true := by decide +kernel
  have hsp : s.regs.state.reg 15 = 16 := by decide +kernel
  have hr8 : s.regs.state.word (State.generalVar false 8) = 0x12345678 := by decide +kernel
  have hprofile : other.profile = Cpu.profile := by decide +kernel
  have hsp' : other.state.reg 15 = 4 := by decide +kernel
  have hmd' : other.state.flag .md = true := by decide +kernel
  have ht' : other.state.flag .t = false := by decide +kernel
  -- with the registers in sight the runs would be evaluated
  clear_value s other
  have hnodup : [8, sr, pr].Nodup := by decide
  have hsaved : ∀ n ∈ [8, sr, pr], n ∈ savedRegs := by decide
  have hpush : List.Forall₂ Insn.Pushes [8, sr, pr] pushes :=
    .cons ⟨by decide, rfl, rfl⟩ (.cons ⟨by decide, rfl, rfl⟩ (.cons ⟨by decide, rfl, rfl⟩ .nil))
  have hpop : List.Forall₂ Insn.Pops [8, sr, pr].reverse pops :=
    .cons ⟨by decide, rfl, rfl⟩ (.cons ⟨by decide, rfl, rfl⟩ (.cons ⟨by decide, rfl, rfl⟩ .nil))
  have hmapped : ∀ i, 1 ≤ i → i ≤ 4 * [8, sr, pr].length →
      Bus.Mapped (LinearMemory.zeros 16) (s.regs.state.reg 15 - BitVec.ofNat 32 i) := by
    intro i hpos hle
    have hle : i ≤ 12 := hle
    have hlt : (16 - BitVec.ofNat 32 i : BitVec 32).toNat < 16 := by bv_omega
    exact hsp ▸ LinearMemory.mapped_of_lt rfl hlt
  obtain ⟨s₁, mem, hrun, hst, hback⟩ := stack_roundTrip hs hmd hnodup hsaved hpush hpop hmapped
  have hsame : other.state.reg 15 = s₁.regs.state.reg 15 := by
    rw [hsp', hst, State.reg_setReg, if_pos rfl, hsp]
    rfl
  obtain ⟨s₂, hrun', hsp₂, hflag, hword⟩ := hback other hprofile hsame hmd'
  refine ⟨hs, s₁, mem, s₂, hrun, hrun', hsp₂.trans hsp, ht', ?_, ?_⟩
  · rw [hflag (by decide), ht]
  · rw [hword 8 (by decide) (State.generalVar false 8) rfl, hr8]

end SuperH
