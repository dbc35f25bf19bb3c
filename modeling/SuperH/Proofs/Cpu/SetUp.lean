import SuperH.Proofs.Cpu.View
import SuperH.Proofs.Vm.Policy
import SuperH.Proofs.Vm.SetUp

/-!
# The interpreter of the machine

* `Cpu.initialVm` : the interpreter that setting up the machine's binding yields (`Cpu.setupBinding_eq`);
* `Cpu.SetUp` : an interpreter with the machine's configuration and a variable of the right sort for each bound
  register, which no effect breaks (`Cpu.SetUp.stable`).
-/

namespace SuperH

/-! ## The machine's interpreter -/

namespace Cpu

/-- The bound registers of the machine. -/
def boundItems : List Bound := (Binding.derive profile).items

theorem boundItems_nodup : (boundItems.map (·.name)).Nodup := boundRegs_selects.items_nodup

theorem boundItems_pos : ∀ b ∈ boundItems, 0 < b.size := boundRegs_selects.size_pos profile_valid

theorem pcBits_pos (bigEndian : Bool) : 0 < (vmConfig bigEndian).pcBits := Nat.succ_pos 31

/-- The interpreter of the machine before its first instruction. -/
def initialVm (bigEndian : Bool) : Vm where
  config := vmConfig bigEndian
  pc := .zero 32 (pcBits_pos bigEndian)
  globals := boundItems.map fun b => (b.name, b.blank)
  binding := some (boundItems.map (⟨·, true⟩))

/-- Setting up the binding that is derived from the layout yields the first interpreter. -/
theorem setupBinding_eq (bigEndian : Bool) : ∃ vm, Vm.new (vmConfig bigEndian) = .ok vm ∧
    Vm.setupBinding (Binding.derive profile) vm = .ok () (initialVm bigEndian) := by
  exact ⟨_, rfl, Vm.setupBinding_eq boundItems_nodup boundItems_pos rfl rfl⟩

/-- The interpreter has the machine's configuration, and each bound register has a variable of its sort. -/
structure SetUp (bigEndian : Bool) (vm : Vm) : Prop where
  config : vm.config = vmConfig bigEndian
  pc : vm.pc.width = 32
  sorts : ∀ b ∈ boundItems, (vm.get? b.name).map Value.sort = some b.sort

theorem setUp_initialVm (bigEndian : Bool) : SetUp bigEndian (initialVm bigEndian) where
  config := rfl
  pc := rfl
  sorts := by
    intro b hb
    show ((boundItems.map fun b => (b.name, b.blank)).lookup b.name).map Value.sort = some b.sort
    rw [Env.lookup_map Bound.blank boundItems_nodup hb, Option.map_some, Bound.sort_blank (boundItems_pos b hb)]

/-- Whatever an effect does, it leaves the machine's interpreter set up. -/
theorem SetUp.stable (bigEndian : Bool) : Policy.any.Stable (SetUp bigEndian) where
  global := by
    intro vm name old value _ hold hs h
    refine { h with sorts := fun b hb => ?_ }
    rw [Vm.get?_replace]
    split
    · subst ‹_ = _›
      rw [← h.sorts b hb, hold, Option.map_some, Option.map_some, Option.map_some, hs]
    · exact h.sorts b hb
  start h := { h with }
  temp h := { h with }
  pc hpos h := { h with pc := congrArg VmConfig.pcBits h.config }
  jumped h := { h with }
  raise _ h := { h with }

end Cpu
end SuperH
