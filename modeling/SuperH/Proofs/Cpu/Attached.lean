import SuperH.Proofs.Cpu.SetUp
import SuperH.Proofs.Cpu.View
import SuperH.Proofs.Vm.Sync

/-!
# The attached interpreter

* `Cpu.Attached`, `Cpu.Ready` : the machine's interpreter with one variable for each bound register, and without an
  exception to report;
* `Cpu.loadedVm`, `Cpu.writeBack` : the interpreter loaded from the registers, and the registers written back from it,
  as `Attached.fromPhysical_eq` and `Attached.toPhysical_eq` say;
* `Ready.step_effect_keeps`, `Ready.step_exception` : one instruction on a ready interpreter.
-/

namespace SuperH

namespace Cpu

/-! ## The attached interpreter -/

theorem boundItems_eq : boundItems = boundRegs.map Register.bound := List.map_flatMap.symm

/-- The machine's interpreter with one variable for each bound register and no other. -/
structure Attached (bigEndian : Bool) (vm : Vm) : Prop extends SetUp bigEndian vm where
  names : vm.globals.map (·.1) = boundRegs.map (·.name)
  binding : vm.binding = some (boundRegs.map fun r => ⟨r.bound, true⟩)

theorem attached_initialVm (bigEndian : Bool) : Attached bigEndian (initialVm bigEndian) where
  toSetUp := setUp_initialVm bigEndian
  names := by
    show (boundItems.map fun b => (b.name, b.blank)).map (·.1) = _
    rw [boundItems_eq, List.map_map, List.map_map]
    rfl
  binding := by
    show some (boundItems.map fun b => (⟨b, true⟩ : BoundVar)) = _
    rw [boundItems_eq, List.map_map]
    rfl

/-- Whatever an effect does, it leaves the machine's interpreter attached. -/
theorem Attached.stable (bigEndian : Bool) : Policy.any.Stable (Attached bigEndian) where
  global hv hold hs h := {
    toSetUp := (SetUp.stable bigEndian).global hv hold hs h.toSetUp
    names := (Env.names_assign ..).trans h.names
    binding := h.binding }
  start h := { h with toSetUp := (SetUp.stable bigEndian).start h.toSetUp }
  temp h := { h with toSetUp := (SetUp.stable bigEndian).temp h.toSetUp }
  pc hpos h := { h with toSetUp := (SetUp.stable bigEndian).pc hpos h.toSetUp }
  jumped h := { h with toSetUp := (SetUp.stable bigEndian).jumped h.toSetUp }
  raise hr h := { h with toSetUp := (SetUp.stable bigEndian).raise hr h.toSetUp }

variable {bigEndian : Bool} {regs : RegisterFile} {vm : Vm}

theorem SetUp.sort_of_mem (h : SetUp bigEndian vm) {r : Register} (hr : r ∈ boundRegs) :
    (vm.get? r.name).map Value.sort = some r.bound.sort :=
  h.sorts r.bound (boundItems_eq ▸ List.mem_map_of_mem hr)

/-- The machine's registers and its interpreter are linked. -/
theorem Attached.linked (h : Attached bigEndian vm) (hp : regs.profile = profile) :
    Sync.Linked regs boundRegs vm where
  valid := hp ▸ profile_valid
  known := hp ▸ boundRegs_known
  binding := h.binding
  sorts _ hr := h.sort_of_mem hr
  pcBits := by rw [h.config]; exact pcBits_pos bigEndian

/-! ## Loading and writing back -/

/-- The machine's interpreter, loaded from the registers, before an instruction. -/
def loadedVm (bigEndian : Bool) (regs : RegisterFile) : Vm where
  config := vmConfig bigEndian
  pc := .ofNat 32 (regs.content pcReg) pcReg_fits.pos
  globals := boundRegs.map fun r => (r.name, regs.value r)
  binding := some (boundRegs.map fun r => ⟨r.bound, true⟩)

/-- The registers with the interpreter's program counter and variables written back. -/
def writeBack (vm : Vm) (regs : RegisterFile) : RegisterFile :=
  Sync.putAll vm boundRegs (regs.put pcReg vm.pc.toNat)

/-- Loading leaves nothing of the interpreter but the variables and the jump of the instruction before. -/
theorem Attached.fromPhysical_eq (h : Attached bigEndian vm) (hp : regs.profile = profile) (hevents : vm.events = []) :
    Sync.fromPhysical regs vm =
      .ok () { loadedVm bigEndian regs with temps := vm.temps, jumped := vm.jumped } := by
  have hvars : vm.globals.assignAll (boundRegs.map fun r => (r.name, regs.value r)) =
      boundRegs.map fun r => (r.name, regs.value r) := by
    refine Env.assignAll_eq (h.names.trans ?_) ?_
    · rw [List.map_map]
      rfl
    · rw [List.map_map]
      exact boundRegs_nodup
  rw [Sync.fromPhysical_eq (h.linked hp) (hp ▸ pcRegister_eq), hvars]
  obtain ⟨config, pc, globals, temps, events, binding, jumped⟩ := vm
  obtain rfl : config = vmConfig bigEndian := h.config
  obtain rfl : events = [] := hevents
  obtain rfl : binding = _ := h.binding
  rfl

theorem Attached.toPhysical_eq (h : Attached bigEndian vm) (hp : regs.profile = profile) :
    Sync.toPhysical vm regs = .ok true (writeBack vm regs) := by
  have hw : vm.pc.width = 32 := h.pc
  have hlt : vm.pc.toNat < 2 ^ 32 := hw ▸ vm.pc.toNat_lt
  rw [Sync.toPhysical_eq (h.linked hp) (hp ▸ pcRegister_eq), writeBack, hw]
  show EStateM.Result.ok true (Sync.putAll vm boundRegs (regs.put pcReg (vm.pc.toNat % 2 ^ 32))) = _
  rw [Nat.mod_eq_of_lt hlt]

theorem get?_loadedVm {r : Register} (hr : r ∈ boundRegs) :
    (loadedVm bigEndian regs).get? r.name = some (regs.value r) :=
  Env.lookup_map (fun r => regs.value r) boundRegs_nodup hr

theorem get?_flag (flag : Flag) : (loadedVm bigEndian regs).get? flag.var =
    some (.bool (decide (regs.content (flagReg flag) = 1))) := get?_loadedVm (flagReg_mem flag)

theorem get?_loadedVm_eq_none {name : String} (h : name ∉ boundRegs.map (·.name)) :
    (loadedVm bigEndian regs).get? name = none := by
  refine Env.lookup_eq_none_iff.2 fun hmem => h ?_
  change name ∈ (boundRegs.map fun r => (r.name, regs.value r)).map (·.1) at hmem
  rwa [List.map_map] at hmem

theorem attached_loadedVm : Attached bigEndian (loadedVm bigEndian regs) where
  config := rfl
  pc := rfl
  sorts := by
    rw [boundItems_eq]
    intro b hb
    obtain ⟨r, hr, rfl⟩ := List.mem_map.1 hb
    show ((loadedVm bigEndian regs).get? r.name).map Value.sort = _
    rw [get?_loadedVm hr, Option.map_some, RegisterFile.value_sort (boundRegs_fits r hr)]
  names := by
    show (boundRegs.map fun r => (r.name, regs.value r)).map (·.1) = _
    rw [List.map_map]
    rfl
  binding := rfl

theorem boundRegs_covered (hp : regs.profile = profile) : ∀ r ∈ boundRegs, regs.Covers r :=
  fun r hr => RegisterFile.covers_of_get? (hp ▸ profile_valid) (hp ▸ boundRegs_known r hr)

theorem pcReg_covered (hp : regs.profile = profile) : regs.Covers pcReg :=
  RegisterFile.covers_of_get? (hp ▸ profile_valid) (hp ▸ pcReg_known)

/-- Each bound register holds its variable's value after writing back. -/
theorem Attached.content_writeBack (h : Attached bigEndian vm) (hp : regs.profile = profile) {r : Register}
    (hr : r ∈ boundRegs) : (writeBack vm regs).content r = Sync.number vm r.name :=
  Sync.content_putAll boundRegs_fits (fun q hq => RegisterFile.covers_put.2 (boundRegs_covered hp q hq))
    (fun _ hs => Sync.number_lt (h.sort_of_mem hs)) boundRegs_apart hr

theorem Attached.content_pc_writeBack (h : Attached bigEndian vm) (hp : regs.profile = profile) :
    (writeBack vm regs).content pcReg = vm.pc.toNat := by
  have hw : vm.pc.width = pcReg.size := h.pc
  have hput : (regs.put pcReg vm.pc.toNat).content pcReg = vm.pc.toNat :=
    RegisterFile.content_put_self (pcReg_covered hp) (hw ▸ vm.pc.toNat_lt)
  refine Eq.trans ?_ hput
  exact Sync.content_putAll_of_apart pcReg_fits boundRegs_fits (fun _ hs => Sync.number_lt (h.sort_of_mem hs))
    pcReg_apart

/-- Writing back what was loaded changes the program counter only. -/
theorem writeBack_loadedVm {pc : Bits} (hw : pc.width = 32) (temps : Env) (events : List String) (jumped : Bool) :
    writeBack { loadedVm bigEndian regs with pc, temps, events, jumped } regs = regs.put pcReg pc.toNat := by
  refine Sync.putAll_eq_self fun r hr => ?_
  have hlt : pc.toNat < 2 ^ pc.width := pc.toNat_lt
  rw [hw] at hlt
  have hget : (loadedVm bigEndian regs).get? r.name = some (regs.value r) := get?_loadedVm hr
  have hput : (regs.put pcReg pc.toNat).content r = regs.content r :=
    RegisterFile.content_put_of_apart (boundRegs_fits r hr) pcReg_fits (pcReg_apart r hr).symm hlt
  refine (Sync.number_eq hget).trans ?_
  rw [RegisterFile.toNat_value (boundRegs_fits r hr)]
  exact hput.symm

theorem profile_writeBack : (writeBack vm regs).profile = regs.profile := Sync.profile_putAll

end Cpu

/-! ## One instruction -/

variable {σ : Type} [Bus σ]

namespace Machine

/-- An instruction starts without the variables and the jump of the one before. -/
theorem step_forgets (lifted : Lifted) (size : Nat) (vm : Vm) (bus : σ) (temps : Env) (jumped : Bool) :
    step lifted size ⟨{ vm with temps, jumped }, bus⟩ = step lifted size ⟨{ vm with temps := [], jumped := false }, bus⟩ :=
  rfl

/-- An instruction that is an exception records it and moves past itself. -/
theorem step_exception {vm : Vm} (hpos : 0 < vm.config.pcBits) (hw : vm.pc.width = vm.config.pcBits) (name : String)
    (size : Nat) (bus : σ) :
    step (.exception name) size ⟨vm, bus⟩ = .ok () ⟨{ vm with
      pc := vm.pc + .ofNat vm.config.pcBits size hpos
      temps := []
      events := vm.events ++ [name]
      jumped := false }, bus⟩ := by
  have hadvance := @Vm.advance_eq { vm with temps := [], events := vm.events ++ [name], jumped := false } hpos hw size
  show onVm (Vm.advance size) ⟨{ vm with temps := [], events := vm.events ++ [name], jumped := false }, bus⟩ = _
  unfold onVm
  rw [hadvance]
  rfl

end Machine

namespace Cpu

variable {bigEndian : Bool} {regs : RegisterFile} {vm : Vm}

/-- The machine's interpreter between two calls: attached, and without an exception to report. -/
structure Ready (bigEndian : Bool) (vm : Vm) : Prop extends Attached bigEndian vm where
  events : vm.events = []

theorem ready_loadedVm : Ready bigEndian (loadedVm bigEndian regs) := { attached_loadedVm with events := rfl }

/-- No effect without exceptions breaks it. -/
theorem Ready.stable (bigEndian : Bool) : Policy.quiet.Stable (Ready bigEndian) where
  global _ hold hs h := { h with toAttached := (Attached.stable bigEndian).global trivial hold hs h.toAttached }
  start h := { h with toAttached := (Attached.stable bigEndian).start h.toAttached }
  temp h := { h with toAttached := (Attached.stable bigEndian).temp h.toAttached }
  pc hpos h := { h with toAttached := (Attached.stable bigEndian).pc hpos h.toAttached }
  jumped h := { h with toAttached := (Attached.stable bigEndian).jumped h.toAttached }
  raise hr := hr.elim

theorem Attached.advance_eq (h : Attached bigEndian vm) (size : Nat) :
    Vm.advance size vm = .ok () (if vm.jumped then vm else { vm with pc := vm.pc + .ofNat 32 size }) := by
  have hconfig := h.config
  have hpos : 0 < vm.config.pcBits := by rw [hconfig]; exact pcBits_pos bigEndian
  have hw : vm.pc.width = vm.config.pcBits := by rw [h.pc, hconfig]; rfl
  rw [Vm.advance_eq hpos hw]
  simp only [hconfig]
  rfl

theorem Ready.step_effect_keeps {e : Effect} (he : e.Within .quiet) (size : Nat) :
    Keeps (fun m : Machine σ => Ready bigEndian m.vm) (Machine.step (.effect e) size) :=
  Machine.step_effect_keeps Policy.quiet_refutes (Ready.stable bigEndian) he size

theorem Ready.step_exception (h : Ready bigEndian vm) (name : String) (size : Nat) (bus : σ) :
    Machine.step (.exception name) size ⟨vm, bus⟩ = .ok () ⟨{ vm with
      pc := vm.pc + .ofNat 32 size
      temps := []
      events := [name]
      jumped := false }, bus⟩ := by
  have hconfig := h.config
  have hpos : 0 < vm.config.pcBits := by rw [hconfig]; exact pcBits_pos bigEndian
  have hw : vm.pc.width = vm.config.pcBits := by rw [h.pc, hconfig]; rfl
  rw [Machine.step_exception hpos hw, h.events]
  simp only [hconfig]
  rfl

end Cpu

end SuperH
