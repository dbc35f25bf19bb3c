import Mathlib.Tactic.ByContra
import SuperH.Proofs.Lift.PostIncrement

/-!
# Loading control registers from the address in a register

* `State.load_then_step` : a register takes a value, and a general register is stepped in the bank that is in use after that;
* `postincrement_load` : so does LDC.L from `@Rm+`, to each control register and to each register of the bank that is not in
  use. Loading SR may exchange the banks before Rm is stepped, and then the other copy is stepped.
-/

namespace SuperH

namespace Cpu

/-! ## The targets -/

/-- Only SR is made up of flags. -/
theorem eq_sr_of_slotAt : ∀ c < regCount, ∀ bank1 rb, slotAt bank1 rb c = .status → c = sr := by decide

/-- In privileged mode neither a control register nor a register of the other bank is one of R0 to R15. -/
theorem slotAt_ne_general : ∀ c < regCount, 16 ≤ c → ∀ bank1 (m : Fin 16),
    slotAt bank1 bank1 c ≠ .own (State.generalVar bank1 m) := by decide

namespace State

variable (st : State)

theorem bank1_of_privileged (h : st.flag .md = true) : st.bank1 = st.flag .rb := by
  rw [bank1, h, Bool.true_and]

theorem place_ne_general (hmd : st.flag .md = true) (m : Fin 16) {c : Nat} (hlt : c < regCount) (hle : 16 ≤ c) :
    st.place c ≠ .own (generalVar st.bank1 m) := by
  rw [place, ← st.bank1_of_privileged hmd]
  exact slotAt_ne_general c hlt hle _ m

theorem place_cases {c : Nat} (hlt : c < regCount) :
    c = sr ∧ st.place c = .status ∨ c ≠ sr ∧ ∃ target, st.place c = .own target := by
  cases hplace : st.place c with
  | status => exact .inl ⟨eq_sr_of_slotAt c hlt _ _ hplace, rfl⟩
  | own target =>
    refine .inr ⟨?_, target, rfl⟩
    rintro rfl
    rw [st.place_saved (by decide)] at hplace
    cases hplace

/-- Loading a register sets the flags if it is SR. -/
theorem flag_set_place {c : Nat} (hlt : c < regCount) (v : BitVec 32) : ((st.place c).set st v).flag =
    if c = sr then FlagSet.unpack (.ofBitVec v Expr.word_pos) else st.flag := by
  rcases st.place_cases hlt with ⟨hc, hplace⟩ | ⟨hc, target, hplace⟩
  · rw [if_pos hc, hplace]
    rfl
  · rw [if_neg hc, hplace]
    rfl

theorem word_set_place_of_ne {c : Nat} {name : WordVar} (h : st.place c ≠ .own name) (v : BitVec 32) :
    ((st.place c).set st v).word name = st.word name := Slot.value_set_of_ne (t := .own name) st v h.symm

theorem word_advance_self (n : Fin 16) (bytes : Nat) :
    (st.advance n bytes).word (generalVar st.bank1 n) = st.word (generalVar st.bank1 n) + BitVec.ofNat 32 bytes :=
  word_setWord_self ..

theorem word_advance_of_ne {n : Fin 16} {name : WordVar} (h : name ≠ generalVar st.bank1 n) (bytes : Nat) :
    (st.advance n bytes).word name = st.word name := word_setWord_of_ne _ h _

/-- A control register or one of the other bank takes a value, and one of R0 to R15 is stepped after that. -/
theorem load_then_step (hmd : st.flag .md = true) (m : Fin 16) {c : Nat} (hlt : c < regCount) (hle : 16 ≤ c) (v : BitVec 32) :
    let flags := if c = sr then FlagSet.unpack (.ofBitVec v Expr.word_pos) else st.flag
    let supplied := generalVar st.bank1 m
    let stepped := generalVar (flags .md && flags .rb) m
    let st' := ((st.place c).set st v).advance m 4
    st'.flag = flags ∧ (c = sr ∨ ∃ target, st.place c = .own target ∧ st'.word target = v) ∧
      st'.word stepped = st.word stepped + 4 ∧
      (∀ name, name ≠ stepped → st.place c ≠ .own name → st'.word name = st.word name) ∧
      (st'.word supplied = st.word supplied + 4 ↔ (c = sr → m < bankedCount → (flags .md && flags .rb) = st.flag .rb)) := by
  intro flags supplied stepped st'
  let loaded := (st.place c).set st v
  have hflags : loaded.flag = flags := st.flag_set_place hlt v
  have hname : stepped = generalVar loaded.bank1 m := by rw [bank1, hflags]
  have hbank : st.bank1 = st.flag .rb := st.bank1_of_privileged hmd
  have hsame : stepped = supplied ↔ (c = sr → m < bankedCount → (flags .md && flags .rb) = st.flag .rb) := by
    rw [← hbank, generalVar_bank]
    by_cases hc : c = sr
    · exact ⟨fun h _ => h, fun h => h hc⟩
    · have hkept : flags = st.flag := if_neg hc
      rw [hkept]
      exact iff_of_true (fun _ => rfl) fun _ _ => rfl
  have hsupplied : st.place c ≠ .own supplied := st.place_ne_general hmd m hlt hle
  have hfree : st.place c ≠ .own stepped := by
    rcases st.place_cases hlt with ⟨-, hplace⟩ | ⟨hc, -⟩
    · rw [hplace]
      intro h
      cases h
    · rwa [hsame.2 fun h => absurd h hc]
  have hstep : st'.word stepped = st.word stepped + 4 := by
    rw [hname, loaded.word_advance_self, ← hname, st.word_set_place_of_ne hfree]
    rfl
  have hframe : ∀ name, name ≠ stepped → st.place c ≠ .own name → st'.word name = st.word name := by
    intro name hne hplace
    rw [loaded.word_advance_of_ne (hname ▸ hne), st.word_set_place_of_ne hplace]
  refine ⟨hflags, ?_, hstep, hframe, Iff.trans ⟨fun h => ?_, fun h => ?_⟩ hsame⟩
  · rcases st.place_cases hlt with ⟨hc, -⟩ | ⟨-, target, hplace⟩
    · exact .inl hc
    · refine .inr ⟨target, hplace, ?_⟩
      have hne : target ≠ generalVar loaded.bank1 m := by
        rw [← hname]
        rintro rfl
        exact hfree hplace
      rw [loaded.word_advance_of_ne hne]
      show ((st.place c).set st v).word target = v
      rw [hplace]
      exact word_setWord_self ..
  · by_contra hne
    rw [hframe supplied (Ne.symm hne) hsupplied] at h
    bv_omega
  · exact h ▸ hstep

end State

end Cpu

open Cpu

variable {bigEndian : Bool} {s : Session}

/-- In privileged mode the call answers, the register of the index takes the word at the address in Rm, and of R0 to R15 one
is stepped by four and the others are left alone. The one that is stepped is the Rm of the bank that is in use when the word
is loaded. It is the one that the address was in, unless SR is loaded with a value that exchanges the banks, and Rm exists
twice. -/
theorem postincrement_load (hs : s.Reachable bigEndian) (hmd : s.regs.state.flag .md = true) (m : Fin 16) {c : Nat}
    (hc : 16 ≤ c ∧ c ≤ 22 ∨ 26 ≤ c ∧ c ≤ 33) (opcode : Nat) {σ : Type} [Bus σ] {bus : σ}
    (hmapped : ∀ i < 4, Bus.Mapped bus (s.regs.state.reg m + BitVec.ofNat 32 i)) :
    let st := s.regs.state
    let v : BitVec 32 := Bus.element bus bigEndian 4 (st.reg m)
    let flags := if c = sr then FlagSet.unpack (.ofBitVec v Expr.word_pos) else st.flag
    let supplied := State.generalVar st.bank1 m
    let stepped := State.generalVar (flags .md && flags .rb) m
    ∃ s', Computer.execute ⟨.ldc, [.postInc m, .reg c], .long, opcode⟩ ⟨s, bus⟩ = .ok () ⟨s', bus⟩ ∧
      s'.regs.state.flag = flags ∧
      (c = sr ∨ ∃ target, st.place c = .own target ∧ s'.regs.state.word target = v) ∧
      s'.regs.state.word stepped = st.word stepped + 4 ∧
      (∀ name, name ≠ stepped → st.place c ≠ .own name → s'.regs.state.word name = st.word name) ∧
      (s'.regs.state.word supplied = st.word supplied + 4 ↔
        (c = sr → m < bankedCount → (flags .md && flags .rb) = st.flag .rb)) := by
  intro st v flags supplied stepped
  have hlt : c < regCount := by
    show c < 34
    omega
  obtain ⟨p, hp⟩ := exists_storage hlt
  have hlift (pc : Nat) : lift ⟨.ldc, [.postInc m, .reg c], .long, opcode⟩ pc (s.regs.state.flag .md) =
      .ok (.effect (loadAndStep p m)) := hmd ▸ lift_loadAndStep (by simp) rfl rfl hp (by omega) pc
  obtain ⟨s', hcall, -, hstate⟩ := execute_loadAndStep hs.live hp hlift hmapped
  refine ⟨s', hcall, ?_⟩
  rw [hstate]
  exact st.load_then_step hmd m hlt (by omega) v

/-- With bank 1 in use the R1 of bank 0 takes the word, and the R1 of bank 1 is stepped. -/
theorem postincrement_load_bank :
    let regs := final (RegisterFile.set "sr" 0x60000000 (RegisterFile.zeros Cpu.profile))
    let s : Session := ⟨Cpu.initialVm true, final (RegisterFile.set "r1b" 4 regs), lift⟩
    let bus : LinearMemory := { bytes := #[0, 0, 0, 0, 1, 2, 3, 4] }
    s.Reachable true ∧
      ∃ s', Computer.execute ⟨.ldc, [.postInc 1, .reg 27], .long, 0x4197⟩ ⟨s, bus⟩ = .ok () ⟨s', bus⟩ ∧
        s'.regs.state.word (State.generalVar false 1) = 0x01020304 ∧ s'.regs.state.word (State.generalVar true 1) = 8 := by
  intro regs s bus
  have hs : s.Reachable true := (Session.Reachable.start (Session.sh4_eq true)).write (by decide +kernel)
  have hmd : s.regs.state.flag .md = true := by decide +kernel
  have hbank : s.regs.state.bank1 = true := by decide +kernel
  have hplace : s.regs.state.place 27 = .own (State.generalVar false 1) := by decide +kernel
  have hr1 : s.regs.state.reg 1 = 4 := by decide +kernel
  have hv : Bus.element bus true 4 4 = 0x01020304 := by decide +kernel
  -- with the registers in sight the call would be evaluated
  clear_value s
  have hmapped : ∀ i < 4, Bus.Mapped bus (s.regs.state.reg 1 + BitVec.ofNat 32 i) := by
    intro i hi
    have hlt : (4 + BitVec.ofNat 32 i : BitVec 32).toNat < 8 := by bv_omega
    exact hr1 ▸ LinearMemory.mapped_of_lt rfl hlt
  obtain ⟨s', hcall, -, htarget, -, -, hstepped⟩ := postincrement_load hs hmd 1 (c := 27) (by decide) 0x4197 hmapped
  have hsupplied := hstepped.2 fun h => absurd h (by decide)
  rcases htarget with h | ⟨target, htarget, hloaded⟩
  · cases h
  · obtain rfl := Slot.own.inj (hplace.symm.trans htarget)
    rw [hr1, hv] at hloaded
    have haddr : s.regs.state.word (State.generalVar s.regs.state.bank1 1) = 4 := hr1
    rw [haddr, hbank] at hsupplied
    exact ⟨hs, s', hcall, hloaded, hsupplied⟩

/-- The R1 of bank 0 has the address, but the word that SR is loaded with sets RB, and the R1 of bank 1 is stepped. -/
theorem other_copy_stepped :
    let regs := final (RegisterFile.set "sr" 0x40000000 (RegisterFile.zeros Cpu.profile))
    let s : Session := ⟨Cpu.initialVm false, final (RegisterFile.set "r1" 4 regs), lift⟩
    let bus : LinearMemory := { bytes := #[0, 0, 0, 0, 0, 0, 0, 0x70] }
    s.Reachable false ∧ s.regs.state.flag .md = true ∧ s.regs.state.reg 1 = 4 ∧ s.regs.state.bank1 = false ∧
      (∀ i < 4, Bus.Mapped bus (s.regs.state.reg 1 + BitVec.ofNat 32 i)) ∧
      ∃ s', Computer.execute ⟨.ldc, [.postInc 1, .reg sr], .long, 0x4107⟩ ⟨s, bus⟩ = .ok () ⟨s', bus⟩ ∧
        s'.regs.state.word (State.generalVar false 1) = 4 ∧
        s.regs.state.word (State.generalVar true 1) = 0 ∧ s'.regs.state.word (State.generalVar true 1) = 4 := by
  intro regs s bus
  have hs : s.Reachable false := (Session.Reachable.start (Session.sh4_eq false)).write (by decide +kernel)
  have hmd : s.regs.state.flag .md = true := by decide +kernel
  have hbank : s.regs.state.bank1 = false := by decide +kernel
  have hr1 : s.regs.state.reg 1 = 4 := by decide +kernel
  have hfirst : s.regs.state.word (State.generalVar false 1) = 4 := by decide +kernel
  have hsecond : s.regs.state.word (State.generalVar true 1) = 0 := by decide +kernel
  have hv : Bus.element bus false 4 4 = 0x70000000 := by decide +kernel
  -- with the registers in sight the call would be evaluated
  clear_value s
  have hmapped : ∀ i < 4, Bus.Mapped bus (s.regs.state.reg 1 + BitVec.ofNat 32 i) := by
    intro i hi
    have hlt : (4 + BitVec.ofNat 32 i : BitVec 32).toNat < 8 := by bv_omega
    exact hr1 ▸ LinearMemory.mapped_of_lt rfl hlt
  have hlift (pc : Nat) : lift ⟨.ldc, [.postInc 1, .reg sr], .long, 0x4107⟩ pc (s.regs.state.flag .md) =
      .ok (.effect (loadAndStep .status 1)) := hmd ▸ lift_loadAndStep (m := 1) (by simp) rfl rfl rfl (by decide) pc
  have hstorage : storage sr = .ok .status := rfl
  obtain ⟨s', hcall, -, hstate⟩ := execute_loadAndStep hs.live hstorage hlift hmapped
  rw [hr1, hv] at hstate
  obtain ⟨-, -, hstep, hframe, -⟩ := s.regs.state.load_then_step hmd 1 (c := sr) (by decide) (by decide) 0x70000000
  have hstepped : s'.regs.state.word (State.generalVar true 1) = s.regs.state.word (State.generalVar true 1) + 4 :=
    hstate ▸ hstep
  have hkept : s'.regs.state.word (State.generalVar false 1) = s.regs.state.word (State.generalVar false 1) := by
    rw [hstate]
    refine hframe _ (fun h => ?_) ?_
    · exact absurd ((generalVar_bank 1 false true).1 h (by decide)) (by decide)
    · rw [State.place_saved _ (by decide : sr ∈ savedRegs)]
      nofun
  rw [hsecond] at hstepped
  exact ⟨hs, hmd, hr1, hbank, hmapped, s', hcall, hkept.trans hfirst, hsecond, hstepped⟩

end SuperH
