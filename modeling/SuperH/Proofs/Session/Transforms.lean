import Mathlib.Data.List.Forall2
import Mathlib.Logic.Function.Iterate
import SuperH.Proofs.Cpu.Execution
import SuperH.Proofs.Session.Live

/-!
# Instructions as functions of the state

* `Cpu.Transforms` : in every session of the machine and on every memory the instructions all answer, and change the
  state as a function says;
* `Transforms.of_runs` : an instruction whose effect runs so on states;
* `Transforms.append`, `Transforms.iterate`, `Transforms.replicate` : programs from their parts, and from parts or instructions
  that are repeated;
* `SameMeaning`, `executeAll_of_sameMeaning` : instructions that lift alike, which run alike in programs.
-/

namespace SuperH

/-- The instruction without the word that it was decoded from. -/
def Insn.withoutOpcode (insn : Insn) : Insn := { insn with opcode := 0 }

namespace Computer

variable {σ : Type} [Bus σ]

theorem executeAll_append (insns insns' : List Insn) (s : Computer σ) :
    executeAll (insns ++ insns') s =
      ((executeAll insns s).1 ++ (executeAll insns' (executeAll insns s).2).1, (executeAll insns' (executeAll insns s).2).2) := by
  induction insns generalizing s with
  | nil => rfl
  | cons insn insns ih =>
    simp only [List.cons_append, executeAll]
    rw [ih]

end Computer

namespace Cpu

/-- Run one after the other in any session of the machine, the instructions all answer, leave the memory alone, and
change the state as the function says. -/
structure Transforms (insns : List Insn) (f : State → State) : Prop where
  run : ∀ {σ : Type} [Bus σ] {bigEndian : Bool} {s : Session} (bus : σ), s.Live bigEndian →
    ∃ s', Computer.executeAll insns ⟨s, bus⟩ = (List.replicate insns.length (.ok ()), ⟨s', bus⟩) ∧
      s'.Live bigEndian ∧ s'.regs.state = f s.regs.state

variable {insn : Insn} {e : Effect}

variable {σ : Type} [Bus σ] {bigEndian : Bool} {s : Session} {vm : Vm} {bus bus' : σ}

/-- An effect that is run on the registers' values, and the move past the instruction unless the effect jumps. -/
theorem step_eq_of_exec {regs : RegisterFile} (he : e.Within .quiet)
    (hexec : Machine.exec e ⟨loadedVm bigEndian regs, bus⟩ = .ok () ⟨vm, bus'⟩) (size : Nat) :
    Ready bigEndian vm ∧ Machine.step (.effect e) size ⟨loadedVm bigEndian regs, bus⟩ =
      .ok () ⟨if vm.jumped then vm else { vm with pc := vm.pc + .ofNat 32 size }, bus'⟩ := by
  have hready : Ready bigEndian vm :=
    (Machine.exec_keeps Policy.quiet_refutes (Ready.stable bigEndian).closed he).of_ok hexec ready_loadedVm
  have hstep : Machine.step (.effect e) size ⟨loadedVm bigEndian regs, bus⟩ = Machine.onVm (Vm.advance size) ⟨vm, bus'⟩ := by
    refine (bind_of_ok (by rfl : _ = EStateM.Result.ok () _)).trans ?_
    exact bind_of_ok hexec
  refine ⟨hready, ?_⟩
  rw [hstep]
  unfold Machine.onVm
  dsimp only
  rw [hready.advance_eq]

theorem step_of_exec {regs : RegisterFile} {y : Frame} (he : e.Within .quiet)
    (hexec : Machine.exec e ⟨loadedVm bigEndian regs, bus⟩ = .ok () ⟨vm, bus'⟩) (hvm : Shows vm y) (size : Nat) :
    ∃ vm', Machine.step (.effect e) size ⟨loadedVm bigEndian regs, bus⟩ = .ok () ⟨vm', bus'⟩ ∧
      Ready bigEndian vm' ∧ Shows vm' y := by
  obtain ⟨hready, hstep⟩ := step_eq_of_exec he hexec size
  refine ⟨_, hstep, ?_, ?_⟩
  · split
    · exact hready
    · exact { hready with pc := Bits.width_add.trans hready.pc }
  · split
    · exact hvm
    · exact { hvm with }

/-- The effect of an instruction raises nothing. -/
theorem quiet_of_liftFor {regs : RegisterFile} (h : liftFor (loadedVm bigEndian regs) insn = .ok (.effect e)) :
    e.Within .quiet := by
  rcases lift_quiet (liftFor_eq_ok.1 h) with h | ⟨e', h, he'⟩
  · cases h
  · cases h
    exact he'

/-- An instruction answers and leads to the state that its effect leads to. -/
theorem execute_of_lifted (hs : s.Live bigEndian) {y : Frame}
    (hlift : liftFor (loadedVm bigEndian s.regs) insn = .ok (.effect e))
    (hexec : Machine.exec e ⟨loadedVm bigEndian s.regs, bus⟩ = .ok () ⟨vm, bus'⟩) (hvm : Shows vm y) :
    ∃ s', Computer.execute insn ⟨s, bus⟩ = .ok () ⟨s', bus'⟩ ∧ s'.Live bigEndian ∧ s'.regs.state = y.toState := by
  obtain ⟨vm', hstep, hready, hvm'⟩ := step_of_exec (quiet_of_liftFor hlift) hexec hvm insnBytes
  have hcall : Computer.execute insn ⟨s, bus⟩ = .ok () ⟨⟨{ vm' with events := [] }, writeBack vm' s.regs, lift⟩, bus'⟩ := by
    rw [hs.execute_eq, hlift]
    dsimp only
    rw [hstep]
    dsimp only
    rw [hready.events]
  have hlive := hs.execute insn bus
  rw [hcall] at hlive
  exact ⟨_, hcall, hlive, hready.state_writeBack hvm' hs.profile⟩

/-- An instruction fails with its effect, and leaves the registers alone. -/
theorem execute_of_error (hs : s.Live bigEndian) {error : Failure VmError}
    (hlift : liftFor (loadedVm bigEndian s.regs) insn = .ok (.effect e))
    (hexec : Machine.exec e ⟨loadedVm bigEndian s.regs, bus⟩ = .error error ⟨vm, bus'⟩) :
    ∃ s', Computer.execute insn ⟨s, bus⟩ = .error (error.map .vm) ⟨s', bus'⟩ ∧ s'.regs = s.regs := by
  have hstep : Machine.step (.effect e) insnBytes ⟨loadedVm bigEndian s.regs, bus⟩ = .error error ⟨vm, bus'⟩ := by
    refine (bind_of_ok (by rfl : _ = EStateM.Result.ok () _)).trans ?_
    exact bind_of_error hexec
  refine ⟨{ s with vm }, ?_, rfl⟩
  rw [hs.execute_eq, hlift]
  dsimp only
  rw [hstep]

/-- An instruction that means the same wherever it is. -/
theorem execute_of_exec (hs : s.Live bigEndian) {y : Frame}
    (hlift : ∀ pc, lift insn pc (s.regs.state.flag .md) = .ok (.effect e))
    (hexec : Machine.exec e ⟨loadedVm bigEndian s.regs, bus⟩ = .ok () ⟨vm, bus'⟩) (hvm : Shows vm y) :
    ∃ s', Computer.execute insn ⟨s, bus⟩ = .ok () ⟨s', bus'⟩ ∧ s'.Live bigEndian ∧ s'.regs.state = y.toState := by
  refine execute_of_lifted hs ?_ hexec hvm
  rw [liftFor_eq_ok, (shows_loadedVm bigEndian hs.profile).privileged]
  exact hlift _

namespace Transforms

theorem of_runs {f : State → State} (hlift : ∀ pc privileged, lift insn pc privileged = .ok (.effect e))
    (h : ∀ st, ∃ y : Frame, Runs ⟨st, []⟩ e y ∧ y.toState = f st) : Transforms [insn] f := by
  constructor
  intro σ _ bigEndian s bus hs
  obtain ⟨y, hruns, hy⟩ := h s.regs.state
  obtain ⟨vm, hexec, hvm⟩ := hruns.exec bus (shows_loadedVm bigEndian hs.profile)
  obtain ⟨s', hcall, hlive, hstate⟩ := execute_of_exec hs (hlift · _) hexec hvm
  refine ⟨s', ?_, hlive, hstate.trans hy⟩
  simp only [Computer.executeAll, hcall]
  rfl

theorem nil : Transforms [] id := ⟨fun {_ _ _ s} _ hs => ⟨s, rfl, hs, rfl⟩⟩

variable {insns insns' : List Insn} {f g : State → State}

theorem append (h : Transforms insns f) (h' : Transforms insns' g) : Transforms (insns ++ insns') (g ∘ f) := by
  constructor
  intro σ _ bigEndian s bus hs
  obtain ⟨s₁, hrun₁, hs₁, hst₁⟩ := h.run bus hs
  obtain ⟨s₂, hrun₂, hs₂, hst₂⟩ := h'.run bus hs₁
  refine ⟨s₂, ?_, hs₂, ?_⟩
  · rw [Computer.executeAll_append, hrun₁]
    simp only [hrun₂, List.length_append, List.replicate_append_replicate]
  · rw [hst₂, hst₁]
    rfl

theorem cons (h : Transforms [insn] f) (h' : Transforms insns g) : Transforms (insn :: insns) (g ∘ f) := h.append h'

/-- A program that is repeated. -/
theorem iterate (h : Transforms insns f) (n : Nat) : Transforms (List.replicate n insns).flatten f^[n] := by
  induction n with
  | zero => exact nil
  | succ n ih =>
    rw [List.replicate_succ, List.flatten_cons, Function.iterate_succ]
    exact h.append ih

/-- One instruction that is repeated. -/
theorem replicate (h : Transforms [insn] f) (n : Nat) : Transforms (List.replicate n insn) f^[n] := by
  have hiterate := h.iterate n
  rwa [List.flatten_replicate_singleton] at hiterate

end Transforms

/-! ## Instruction words -/

/-- Only messages show the word of an instruction that has a meaning. -/
theorem lift_withoutOpcode (h : insn.mnemonic ≠ .invalid) (pc : Nat) (privileged : Bool) :
    lift insn.withoutOpcode pc privileged = lift insn pc privileged := by
  obtain ⟨mnemonic, operands, size, opcode⟩ := insn
  cases mnemonic <;> first | exact absurd rfl h | rfl

/-- Two instructions mean the same, wherever they are. -/
def SameMeaning (insn insn' : Insn) : Prop := ∀ pc privileged, lift insn pc privileged = lift insn' pc privileged

theorem execute_of_sameMeaning (hs : s.Live bigEndian) {insn' : Insn}
    (h : SameMeaning insn insn') (bus : σ) : Computer.execute insn ⟨s, bus⟩ = Computer.execute insn' ⟨s, bus⟩ := by
  have hfor : liftFor (loadedVm bigEndian s.regs) insn = liftFor (loadedVm bigEndian s.regs) insn' := by
    unfold liftFor
    rw [h]
  rw [hs.execute_eq, hs.execute_eq, hfor]

theorem executeAll_of_sameMeaning {insns insns' : List Insn} (h : List.Forall₂ SameMeaning insns insns') {s : Session}
    (hs : s.Live bigEndian) (bus : σ) :
    Computer.executeAll insns ⟨s, bus⟩ = Computer.executeAll insns' ⟨s, bus⟩ := by
  induction h generalizing s bus with
  | nil => rfl
  | @cons insn insn' insns insns' hinsn _ ih =>
    have hfirst := execute_of_sameMeaning hs hinsn bus
    have hrest := ih (hs.execute insn' bus) (final (Computer.execute insn' ⟨s, bus⟩)).bus
    simp only [Computer.executeAll, hfirst]
    rw [hrest]

theorem executeAll_withoutOpcode {insns : List Insn} (h : ∀ insn ∈ insns, insn.mnemonic ≠ .invalid)
    (hs : s.Live bigEndian) (bus : σ) :
    Computer.executeAll (insns.map Insn.withoutOpcode) ⟨s, bus⟩ = Computer.executeAll insns ⟨s, bus⟩ := by
  refine executeAll_of_sameMeaning (List.forall₂_map_left_iff.2 (List.forall₂_same.2 fun insn hi => ?_)) hs bus
  exact lift_withoutOpcode (h insn hi)

end Cpu
end SuperH
