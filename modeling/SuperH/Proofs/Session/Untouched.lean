import SuperH.Proofs.Cpu.Execution
import SuperH.Proofs.Session.Live
import SuperH.Proofs.Vm.RoundTrip

/-!
# What calls leave alone

* `RegisterFile.ChangesOnly regs regs' names` : all bits but those of the named registers have their values;
* `RegisterFile.SameUnbound regs regs'` : the bits have their values that belong to no bound register. A write-back leaves them
  alone (`Attached.sameUnbound_writeBack`), and so do a call (`sameUnbound_execute`) and a run (`sameUnbound_executeAll`);
* `SameUnbound.changesOnly` : what changes of the state is then all that changes of the registers, but for the program counter;
* `SameUnbound.getBits_eq` : a register reads as before if what it shows of the state is left alone, a word or the flags;
* `changesOnly_execute`, `changesOnly_executeAll`, `getBits_execute` : so it is with calls and runs.
-/

namespace SuperH

open Cpu

namespace RegisterFile

/-- The registers are the same, and all their bits have the same values but those that belong to the named ones. -/
structure ChangesOnly (regs regs' : RegisterFile) (names : List String) : Prop where
  profile : regs'.profile = regs.profile
  testBit : ∀ cls i, (∀ name ∈ names, ∀ r, regs.profile.get? name = some r → ¬ r.Holds cls i) →
    (regs'.arena cls).testBit i = (regs.arena cls).testBit i

/-- The registers are the same, and the bits have the same values that belong to no bound register and are not the program
counter's. -/
structure SameUnbound (regs regs' : RegisterFile) : Prop where
  profile : regs'.profile = regs.profile
  testBit : ∀ cls i, ¬ pcReg.Holds cls i → (∀ b ∈ boundRegs, ¬ b.Holds cls i) →
    (regs'.arena cls).testBit i = (regs.arena cls).testBit i

namespace SameUnbound

variable {regs regs' regs'' : RegisterFile} {r : Register}

theorem refl : regs.SameUnbound regs := ⟨rfl, fun _ _ _ _ => rfl⟩

theorem trans (h : regs.SameUnbound regs') (h' : regs'.SameUnbound regs'') : regs.SameUnbound regs'' where
  profile := h'.profile.trans h.profile
  testBit cls i hpc hfree := (h'.testBit cls i hpc hfree).trans (h.testBit cls i hpc hfree)

/-- A bit of a bound register has its value if the register has. -/
theorem testBit_of_kept (h : regs.SameUnbound regs') {cls : RegClass} {i : Nat} (hpc : ¬ pcReg.Holds cls i)
    (hkept : ∀ b ∈ boundRegs, b.Holds cls i → regs'.content b = regs.content b) :
    (regs'.arena cls).testBit i = (regs.arena cls).testBit i := by
  by_cases hheld : ∃ b ∈ boundRegs, b.Holds cls i
  · obtain ⟨b, hb, hholds⟩ := hheld
    rw [testBit_arena_of_holds hholds, testBit_arena_of_holds hholds, hkept b hb hholds]
  · exact h.testBit cls i hpc fun b hb hholds => hheld ⟨b, hb, hholds⟩

/-- A register that is not bound has its value if those have that have bits of it. -/
theorem content_of_kept (h : regs.SameUnbound regs') (hr : r.Fits) (hpc : pcReg.Apart r)
    (hkept : ∀ b ∈ boundRegs, ¬ b.Apart r → regs'.content b = regs.content b) : regs'.content r = regs.content r := by
  apply Nat.eq_of_testBit_eq
  intro i
  rw [testBit_content, testBit_content]
  by_cases hi : i < r.size
  swap
  · simp [hi]
  have hself : r.Holds r.cls (r.offset + i) := ⟨rfl, Nat.le_add_right _ _, Nat.add_lt_add_left hi _⟩
  refine congrArg _ (h.testBit_of_kept (fun hholds => ?_) fun b hb hholds => ?_)
  · exact hholds.not_apart pcReg_fits hr hself hpc
  · exact hkept b hb (hholds.not_apart (boundRegs_fits b hb) hr hself)

end SameUnbound

end RegisterFile

namespace Cpu

variable {bigEndian : Bool} {regs regs' : RegisterFile} {vm : Vm} {b : Register}

theorem Attached.sameUnbound_writeBack (h : Attached bigEndian vm) (regs : RegisterFile) :
    regs.SameUnbound (writeBack vm regs) where
  profile := profile_writeBack
  testBit cls i hpc hfree := by
    have hlt : vm.pc.toNat < 2 ^ pcReg.size := by
      have hw : vm.pc.width = pcReg.size := h.pc
      exact hw ▸ vm.pc.toNat_lt
    rw [writeBack, Sync.testBit_putAll (fun _ hs => Sync.number_lt (h.sort_of_mem hs)) hfree]
    exact RegisterFile.testBit_put_of_not_holds hlt hpc

/-! ## Contents and states -/

/-- A bound register is a word of the state or a flag. -/
theorem boundRegs_cases : ∀ b ∈ boundRegs, b.name ∈ wordNames ∨ ∃ flag ∈ Flag.all, b = flagReg flag := by decide

theorem boundRegs_size_le : ∀ b ∈ boundRegs, b.size ≤ 32 := by decide

/-- What a bound register holds is a part of the state. -/
theorem content_eq_of_state (hp : regs.profile = profile) (hp' : regs'.profile = profile) (hb : b ∈ boundRegs)
    (hword : ∀ name : WordVar, name.1 = b.name → regs'.state.word name = regs.state.word name)
    (hflag : ∀ flag : Flag, flag.var = b.name → regs'.state.flag flag = regs.state.flag flag) :
    regs'.content b = regs.content b := by
  have hsize := boundRegs_size_le b hb
  have hlt (regs : RegisterFile) : regs.content b < 2 ^ 32 :=
    Nat.lt_of_lt_of_le RegisterFile.content_lt (Nat.pow_le_pow_right (by decide) hsize)
  have hnumber := number_eq_content hp hb (by omega)
  have hnumber' := number_eq_content hp' hb (by omega)
  rcases boundRegs_cases b hb with hname | ⟨flag, hmem, rfl⟩
  · have hsame : BitVec.ofNat 32 (regs'.number b.name) = BitVec.ofNat 32 (regs.number b.name) := hword ⟨b.name, hname⟩ rfl
    rw [hnumber, hnumber', BitVec.toNat_eq, BitVec.toNat_ofNat, BitVec.toNat_ofNat, Nat.mod_eq_of_lt (hlt regs),
      Nat.mod_eq_of_lt (hlt regs')] at hsame
    exact hsame
  · have hsame : decide (regs'.number flag.var = 1) = decide (regs.number flag.var = 1) := hflag flag rfl
    have hbit (regs : RegisterFile) : regs.content (flagReg flag) < 2 := RegisterFile.content_lt
    change regs.number flag.var = _ at hnumber
    change regs'.number flag.var = _ at hnumber'
    rw [hnumber, hnumber', decide_eq_decide] at hsame
    have h₁ := hbit regs
    have h₂ := hbit regs'
    omega

/-- Of the bound registers only a register itself has bits of it, or flags, which are bits of SR. -/
theorem bound_overlaps : ∀ r ∈ profile.registers, r.name ≠ "pc" → pcReg.overlaps r = false ∧
    ∀ b ∈ boundRegs, b.overlaps r = true → b.name = r.name ∨ r.name ∉ wordNames ∧ b.name ∉ wordNames := by decide

end Cpu

namespace RegisterFile.SameUnbound

variable {regs regs' : RegisterFile}

/-- Of the registers the program counter may change, and what changes of the state. -/
theorem changesOnly (h : regs.SameUnbound regs') (hp : regs.profile = Cpu.profile) {names : List String}
    (hstate : regs.state.ChangesOnly regs'.state names) : regs.ChangesOnly regs' ("pc" :: names) := by
  refine ⟨h.profile, fun cls i hout => ?_⟩
  rw [hp] at hout
  refine h.testBit_of_kept (hout "pc" (List.mem_cons_self ..) pcReg rfl) fun b hb hholds => ?_
  have hother : b.name ∉ names := fun hmem => hout _ (List.mem_cons_of_mem _ hmem) b (boundRegs_known b hb) hholds
  refine content_eq_of_state hp (h.profile.trans hp) hb (fun var hvar => ?_) fun flag hflag => ?_
  · exact hstate.word var (hvar ▸ hother)
  · exact hstate.flag flag (hflag ▸ hother)

/-- A register reads as before if what it shows of the state is left alone. -/
theorem getBits_eq (h : regs.SameUnbound regs') (hp : regs.profile = Cpu.profile) {name : String} (hpc : name ≠ "pc")
    (hword : ∀ var : WordVar, var.1 = name → regs'.state.word var = regs.state.word var)
    (hflag : name ∉ wordNames → regs'.state.flag = regs.state.flag) : regs'.getBits name = regs.getBits name := by
  have hp' : regs'.profile = Cpu.profile := h.profile.trans hp
  cases hget : Cpu.profile.get? name with
  | none =>
    unfold getBits
    rw [hp', hp, hget]
  | some r =>
    obtain ⟨hmem, rfl⟩ := Profile.mem_of_get? hget
    obtain ⟨hapart, hoverlaps⟩ := bound_overlaps r hmem hpc
    refine (getBits_inj hp' hp hget).2 ?_
    refine h.content_of_kept (profile_valid.fits r hmem) hapart fun b hb hover => ?_
    refine content_eq_of_state hp hp' hb (fun var hvar => ?_) fun flag hvar => ?_
    · rcases hoverlaps b hb (Bool.eq_true_of_not_eq_false hover) with heq | ⟨-, hnone⟩
      · exact hword var (hvar.trans heq)
      · exact absurd (hvar ▸ var.2) hnone
    · have hnone : b.name ∉ wordNames := fun hname => flagVar_ne flag ⟨_, hname⟩ hvar
      rcases hoverlaps b hb (Bool.eq_true_of_not_eq_false hover) with heq | ⟨hnone', -⟩
      · exact congrFun (hflag (heq ▸ hnone)) flag
      · exact congrFun (hflag hnone') flag

end RegisterFile.SameUnbound

/-! ## Calls and runs -/

variable {σ : Type} [Bus σ] {bigEndian : Bool} {s : Session} {insn : Insn} {bus : σ}

theorem sameUnbound_execute (hs : s.Live bigEndian) (insn : Insn) (bus : σ) :
    s.regs.SameUnbound (final (Computer.execute insn ⟨s, bus⟩)).session.regs := by
  rw [hs.execute_eq]
  dsimp only
  cases hlift : liftFor (loadedVm bigEndian s.regs) insn with
  | error trap => exact .refl
  | ok lifted =>
    have hattached := ready_loadedVm.step_lifted hlift insnBytes bus
    dsimp only
    cases hstep : Machine.step lifted insnBytes (⟨loadedVm bigEndian s.regs, bus⟩ : Machine σ) with
    | error e m => exact .refl
    | ok u m =>
      rw [hstep] at hattached
      dsimp only
      split
      · exact Attached.sameUnbound_writeBack hattached s.regs
      · exact Attached.sameUnbound_writeBack hattached s.regs

theorem sameUnbound_executeAll (hs : s.Live bigEndian) (insns : List Insn) (bus : σ) :
    s.regs.SameUnbound (Computer.executeAll insns ⟨s, bus⟩).2.session.regs := by
  let P (t : Computer σ) : Prop := t.session.Live bigEndian ∧ s.regs.SameUnbound t.session.regs
  have hcall : ∀ insn ∈ insns, ∀ t, P t → P (final (Computer.execute insn t)) := fun insn _ t ⟨hlive, hsame⟩ =>
    ⟨hlive.execute insn t.bus, hsame.trans (sameUnbound_execute hlive insn t.bus)⟩
  have hend : P (Computer.executeAll insns ⟨s, bus⟩).2 := Computer.executeAll_keeps hcall ⟨hs, .refl⟩
  exact hend.2

/-- Of the registers a call changes the program counter and what it changes of the state. -/
theorem changesOnly_execute (hs : s.Live bigEndian) {t : Computer σ} (hcall : Computer.execute insn ⟨s, bus⟩ = .ok () t)
    {names : List String} (hstate : s.regs.state.ChangesOnly t.session.regs.state names) :
    s.regs.ChangesOnly t.session.regs ("pc" :: names) := by
  have hsame := sameUnbound_execute hs insn bus
  rw [hcall] at hsame
  exact hsame.changesOnly hs.profile hstate

/-- So does a run of calls. -/
theorem changesOnly_executeAll (hs : s.Live bigEndian) {insns : List Insn} {t : Computer σ}
    (hrun : (Computer.executeAll insns ⟨s, bus⟩).2 = t) {names : List String}
    (hstate : s.regs.state.ChangesOnly t.session.regs.state names) : s.regs.ChangesOnly t.session.regs ("pc" :: names) := by
  subst hrun
  exact (sameUnbound_executeAll hs insns bus).changesOnly hs.profile hstate

/-- A register reads as before if the call leaves alone what it shows of the state. -/
theorem getBits_execute (hs : s.Live bigEndian) {t : Computer σ} (hcall : Computer.execute insn ⟨s, bus⟩ = .ok () t)
    {name : String} (hpc : name ≠ "pc")
    (hword : ∀ var : WordVar, var.1 = name → t.session.regs.state.word var = s.regs.state.word var)
    (hflag : name ∉ wordNames → t.session.regs.state.flag = s.regs.state.flag) :
    t.session.regs.getBits name = s.regs.getBits name := by
  have hsame := sameUnbound_execute hs insn bus
  rw [hcall] at hsame
  exact hsame.getBits_eq hs.profile hpc hword hflag

end SuperH
