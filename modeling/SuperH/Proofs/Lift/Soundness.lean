import SuperH.Memory.Linear
import SuperH.Proofs.Cpu.SetUp
import SuperH.Proofs.Lift.Sorting
import SuperH.Proofs.Vm.Soundness

/-!
# Lifted instructions run

* `SetUp.typed` : the machine's interpreter has the sorts that instructions are built for;
* `lift_sorted` : what lifting yields is well sorted;
* `step_lift_sound` : an instruction that lifts runs to its end, unless the bus fails.
-/

namespace SuperH

/-- The instructions that work at the size of their access: all but those that combine their operands with a word, and
also these at the size of a register. -/
def Insn.SizeFits (insn : Insn) : Prop := insn.mnemonic.WordOnly → insn.size = .unsized ∨ insn.size = .long

namespace Cpu

theorem globalSort_eq_some {name : String} {s : ValueSort} (h : globalSort name = some s) :
    ∃ b ∈ boundItems, b.name = name ∧ b.sort = s := by
  obtain ⟨b, hb, hs⟩ := Option.map_eq_some_iff.1 h
  have hname := List.find?_some hb
  exact ⟨b, List.mem_of_find?_eq_some hb, by simpa using hname, hs⟩

/-- The machine's interpreter has the sorts that instructions are built for. -/
theorem SetUp.typed {bigEndian : Bool} {vm : Vm} (h : SetUp bigEndian vm) (width : Nat) :
    vm.Typed (sorting width) [] where
  respects v s hv := by
    obtain ⟨scope, name⟩ := v
    cases scope with
    | temp => exact absurd (Sorting.var_temp_eq_some.1 hv).1 List.not_mem_nil
    | global =>
      obtain ⟨b, hb, rfl, rfl⟩ := globalSort_eq_some hv
      obtain ⟨x, hx, hs⟩ := Option.map_eq_some_iff.1 (h.sorts b hb)
      exact ⟨x, Vm.lookup_global_eq_ok.2 hx, hs⟩
  memKey := by rw [h.config]; rfl
  pcBits := by rw [h.config]; exact Cpu.pcBits_pos _
  pc := by rw [h.pc, h.config]; rfl

end Cpu

/-- What lifting an instruction yields is well sorted. -/
theorem lift_sorted {insn : Insn} (hsize : insn.SizeFits) {pc : Nat} {privileged : Bool} {lifted : Lifted}
    (h : lift insn pc privileged = .ok lifted) (e : Effect) (he : lifted = .effect e) :
    e.Sorted (Cpu.sorting insn.size.operandBits) [] := by
  subst he
  unfold lift at h
  dsimp only at h
  split at h
  · cases h
  · obtain ⟨e', he', h⟩ := Build.map_eq_ok.1 h
    cases h
    refine @Lift.effect_sorted ⟨insn, pc⟩ _ _ (fun hword => ?_) he'
    rcases hsize hword with hs | hs
    · exact congrArg AccessSize.operandBits hs
    · exact congrArg AccessSize.operandBits hs

variable {σ : Type} [Bus σ]

/-- An instruction that lifts runs on every state of the machine's interpreter and every bus, and nothing but the bus
can stop it: every variable is there, with the sort and the width that its use needs. -/
theorem step_lift_sound {insn : Insn} (hsize : insn.SizeFits) {pc : Nat} {privileged : Bool} {lifted : Lifted}
    (h : lift insn pc privileged = .ok lifted) {bigEndian : Bool} {vm : Vm} (hvm : Cpu.SetUp bigEndian vm) (bus : σ)
    (size : Nat) :
    (∃ m : Machine σ, Machine.step lifted size ⟨vm, bus⟩ = .ok () m) ∨
      ∃ (addr : Address) (cause : BusError) (m : Machine σ),
        Machine.step lifted size ⟨vm, bus⟩ = .error (.error (.bus addr cause)) m := by
  have hrun := Machine.step_sound (σ := σ) (lift_sorted hsize h) size ⟨vm, bus⟩ (hvm.typed _)
  cases hstep : Machine.step lifted size (⟨vm, bus⟩ : Machine σ) with
  | ok u m => exact .inl ⟨m, rfl⟩
  | error f m =>
    rw [hstep] at hrun
    cases f with
    | fault g => exact hrun.elim
    | error e =>
      cases e with
      | bus addr cause => exact .inr ⟨addr, cause, m, rfl⟩
      | _ => exact hrun.elim

theorem step_lift_sound_addc : ∃ lifted, lift ⟨.addc, [.reg 1, .reg 2], .long, 0x321e⟩ 0 false = .ok lifted ∧
    ((∃ m : Machine LinearMemory,
        Machine.step lifted 2 ⟨Cpu.initialVm false, LinearMemory.zeros 4⟩ = .ok () m) ∨
      ∃ (addr : Address) (cause : BusError) (m : Machine LinearMemory),
        Machine.step lifted 2 ⟨Cpu.initialVm false, LinearMemory.zeros 4⟩ = .error (.error (.bus addr cause)) m) := by
  have hsize : Insn.SizeFits ⟨.addc, [.reg 1, .reg 2], .long, 0x321e⟩ := fun _ => .inr rfl
  obtain ⟨lifted, h⟩ : ∃ lifted, lift ⟨.addc, [.reg 1, .reg 2], .long, 0x321e⟩ 0 false = .ok lifted := ⟨_, rfl⟩
  exact ⟨lifted, h, step_lift_sound hsize h (Cpu.setUp_initialVm false) (LinearMemory.zeros 4) 2⟩

end SuperH
