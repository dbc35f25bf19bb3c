import SuperH.Proofs.Vm.SetUp

/-!
# Round trips

Both directions of the synchronisation in a row, for interpreters with a binding set up.

* `Sync.fromPhysical_ok`, `Sync.toPhysical_ok` : what either direction does, with and without a program counter;
* `Sync.physical_roundTrip` : loading and writing back leaves the registers as they were, also where bound registers
  overlap;
* `Sync.variables_roundTrip` : writing back and loading moves every bound variable of a derived binding, and no bit of
  another register changes.
-/

namespace SuperH

/-- A value is determined by its sort and the number that it stands for. -/
theorem Value.ext_toNat {x y : Value} (hs : x.sort = y.sort) (h : x.toBits.toNat = y.toBits.toNat) : x = y := by
  cases x with
  | bool b =>
    obtain ⟨c, rfl⟩ := eq_bool_of_sort hs.symm
    have hinj : ∀ b c : Bool, b.toNat = c.toNat → b = c := by decide
    rw [toBits, toBits, Bits.toNat_ofBool, Bits.toNat_ofBool] at h
    exact congrArg Value.bool (hinj b c h)
  | bits v =>
    obtain ⟨w, rfl, hw⟩ := eq_bits_of_sort hs.symm
    exact congrArg Value.bits (Bits.ext_toNat hw.symm h)

/-- The value of a register is the value of what was written to it. -/
theorem RegisterFile.value_eq_of_content {regs : RegisterFile} {r : Register} (h : r.Fits) {x : Value}
    (hs : x.sort = r.bound.sort) (hx : regs.content r = x.toBits.toNat) : regs.value r = x := by
  refine Value.ext_toNat ?_ ?_
  · rw [value_sort h, hs]
  · rw [toNat_value h, hx]

namespace Sync

variable {regs : RegisterFile} {rs : List Register} {vm : Vm}

/-! ## Profiles with and without a program counter -/

theorem loadPc_of_none (h : regs.profile.pcRegister? = none) : loadPc regs vm = .ok () vm := by
  unfold loadPc
  cases hpc : regs.profile.pc with
  | none => rfl
  | some name =>
    have hget : regs.profile.get? name = none := by
      unfold Profile.pcRegister? at h
      rw [hpc] at h
      exact h
    have hbits : regs.getBits name = .ok none := by
      unfold RegisterFile.getBits
      rw [hget]
      rfl
    dsimp only
    rw [hbits]
    rfl

theorem writePc_of_none (h : regs.profile.pcRegister? = none) : writePc vm regs = .ok false regs := by
  refine (bind_of_ok rfl).trans ?_
  rw [h]
  rfl

/-- The registers with the program counter written to its register, if it has one. -/
def putPc (vm : Vm) (regs : RegisterFile) : RegisterFile :=
  match regs.profile.pcRegister? with
  | none => regs
  | some r => regs.put r (vm.pc.toNat % 2 ^ r.size)

@[simp] theorem profile_putPc : (putPc vm regs).profile = regs.profile := by
  unfold putPc
  split
  · rfl
  · exact RegisterFile.profile_put

theorem covers_putPc {r : Register} : (putPc vm regs).Covers r ↔ regs.Covers r := by
  unfold putPc
  split
  · rfl
  · exact RegisterFile.covers_put

/-- Writing back puts the program counter first, if there is one, and then every bound variable. -/
theorem toPhysical_ok (h : Linked regs rs vm) :
    ∃ whole, toPhysical vm regs = .ok whole (putAll vm rs (putPc vm regs)) := by
  cases hr : regs.profile.pcRegister? with
  | some r =>
    refine ⟨r.size == vm.pc.width, ?_⟩
    rw [toPhysical_eq h hr, putPc, hr]
  | none =>
    have hput : putPc vm regs = regs := by
      unfold putPc
      rw [hr]
    refine ⟨false, ?_⟩
    unfold toPhysical
    rw [hput, bind_of_ok (writePc_of_none hr), h.binding]
    dsimp only
    rw [bind_of_ok (writeAllBound_eq h.valid h.known h.sorts)]
    rfl

/-- The interpreter with the bound variables loaded. -/
def loadAll (regs : RegisterFile) (rs : List Register) (vm : Vm) : Vm :=
  { vm with globals := vm.globals.assignAll (rs.map fun r => (r.name, regs.value r)) }

/-- Loading changes the program counter and the bound variables. -/
theorem fromPhysical_ok (h : Linked regs rs vm) :
    ∃ pc, fromPhysical regs vm = .ok () { loadAll regs rs vm with pc } := by
  cases hr : regs.profile.pcRegister? with
  | some r => exact ⟨_, fromPhysical_eq h hr⟩
  | none =>
    refine ⟨vm.pc, ?_⟩
    exact fromPhysical_of_ok (loadPc_of_none hr) h.binding (loadBound_eq h.valid h.known h.sorts)

/-- A loaded variable has the value of its register. -/
theorem get?_loadAll (h : Linked regs rs vm) (hnodup : (rs.map (·.name)).Nodup) {r : Register} (hr : r ∈ rs) :
    (loadAll regs rs vm).get? r.name = some (regs.value r) := by
  have hnames : ((rs.map fun r => (r.name, regs.value r)).map (·.1)).Nodup := by
    rw [List.map_map]
    exact hnodup
  obtain ⟨old, hold, -⟩ := Option.map_eq_some_iff.1 (h.sorts r hr)
  have hold' : vm.globals.lookup r.name = some old := hold
  unfold loadAll Vm.get?
  rw [Env.lookup_assignAll hnames, Env.lookup_map (fun r => regs.value r) hnodup hr, hold']
  rfl

/-- Loading gives every bound variable the value of its register. -/
theorem exists_loaded (h : Linked regs rs vm) (hnodup : (rs.map (·.name)).Nodup) :
    ∃ vm', fromPhysical regs vm = .ok () vm' ∧ ∀ r ∈ rs, vm'.get? r.name = some (regs.value r) := by
  obtain ⟨pc, hload⟩ := fromPhysical_ok h
  exact ⟨_, hload, fun r hr => get?_loadAll h hnodup hr⟩

/-- A loaded interpreter is still linked to the registers. -/
theorem Linked.load (h : Linked regs rs vm) (hnodup : (rs.map (·.name)).Nodup) (pc : Bits) :
    Linked regs rs { loadAll regs rs vm with pc } where
  valid := h.valid
  known := h.known
  binding := h.binding
  sorts := by
    intro r hr
    have hget : Vm.get? { loadAll regs rs vm with pc } r.name = some (regs.value r) := get?_loadAll h hnodup hr
    rw [hget, Option.map_some, RegisterFile.value_sort (h.valid.fits_of_get? (h.known r hr))]
  pcBits := h.pcBits

/-! ## Registers to variables and back -/

/-- Loading an interpreter and writing it back is exact and leaves the registers bit for bit as they were: the registers
of an explicit binding may overlap each other and the program counter. -/
theorem physical_roundTrip {p : Profile} (hp : p.validate = .ok ()) {pc : Register} (hpc : p.pcRegister? = some pc)
    {b : Binding} (hb : b = .derive p ∨ ∃ names, Binding.exactly p names = .ok b) {regs : RegisterFile}
    (hregs : regs.profile = p) {vm : Vm} (hvm : vm.SetUpBy b) (hbits : vm.config.pcBits = pc.size) :
    ∃ vm', fromPhysical regs vm = .ok () vm' ∧ toPhysical vm' regs = .ok true regs := by
  subst hregs
  have hvalid := Profile.valid_of_validate hp
  obtain ⟨rs, hrs⟩ : ∃ rs, b.Selects regs.profile rs := by
    rcases hb with rfl | ⟨names, hnames⟩
    · exact ⟨_, Binding.derive_selects hvalid⟩
    · obtain ⟨rs, hrs, -⟩ := Binding.exactly_eq_ok_iff.1 hnames
      exact ⟨rs, hrs⟩
  have hlinked := hvm.linked hvalid hrs
  refine ⟨_, fromPhysical_eq hlinked hpc, ?_⟩
  have hloaded := hlinked.load hrs.nodup (.ofNat vm.config.pcBits (regs.content pc) hlinked.pcBits)
  refine (toPhysical_eq hloaded hpc).trans ?_
  -- every write puts back what its register holds, so its order and its overlaps do not matter
  have hput : regs.put pc (regs.content pc % 2 ^ vm.config.pcBits % 2 ^ pc.size) = regs := by
    have hlt : regs.content pc < 2 ^ pc.size := RegisterFile.content_lt
    rw [hbits, Nat.mod_mod, Nat.mod_eq_of_lt hlt, RegisterFile.put_content]
  have hnumber : ∀ r ∈ rs, number { loadAll regs rs vm with
      pc := .ofNat vm.config.pcBits (regs.content pc) hlinked.pcBits } r.name = regs.content r := by
    intro r hr
    have hfits := hvalid.fits_of_get? (hrs.known r hr)
    rw [← RegisterFile.toNat_value hfits]
    exact number_eq (get?_loadAll hlinked hrs.nodup hr)
  rw [Bits.toNat_ofNat, hput, putAll_eq_self hnumber, Bits.width_ofNat, hbits, BEq.rfl]

/-- An explicit binding of a register, its lower half, a flag in it and the program counter across its end. -/
theorem physical_roundTrip_overlapping :
    let p : Profile := ⟨[⟨"eax", 0, 32, .gpr⟩, ⟨"ax", 0, 16, .gpr⟩, ⟨"zf", 3, 1, .gpr⟩, ⟨"pc", 24, 32, .gpr⟩],
      some "pc"⟩
    let b : Binding := ⟨[⟨"ax", 16⟩, ⟨"pc", 32⟩, ⟨"zf", 1⟩, ⟨"eax", 32⟩]⟩
    let regs : RegisterFile := (RegisterFile.zeros p).setArena .gpr 0xfedcba9876543210
    ∃ vm vm', vm.SetUpBy b ∧ Binding.exactly p ["ax", "pc", "zf", "eax"] = .ok b ∧
      fromPhysical regs vm = .ok () vm' ∧ toPhysical vm' regs = .ok true regs := by
  intro p b regs
  have hb : Binding.exactly p ["ax", "pc", "zf", "eax"] = .ok b := by rfl
  have hp : p.validate = .ok () := by decide
  have hpc : p.pcRegister? = some ⟨"pc", 24, 32, .gpr⟩ := by decide
  let before : Vm := { config := {}, pc := .zero 32 (Nat.succ_pos 31) }
  have hset : Vm.setupBinding b before = _ := Vm.setupBinding_eq (by decide) (by decide) rfl rfl
  have hvm := Vm.SetUpBy.of_setupBinding hset (Nat.succ_pos 31)
  have hregs : regs.profile = p := rfl
  obtain ⟨vm', hload, hback⟩ := physical_roundTrip hp hpc (.inr ⟨_, hb⟩) hregs hvm rfl
  exact ⟨_, vm', hvm, hb, hload, hback⟩

/-! ## Variables to registers and back -/

theorem testBit_putPc {cls : RegClass} {i : Nat} (h : ∀ r, regs.profile.pcRegister? = some r → ¬ r.Holds cls i) :
    ((putPc vm regs).arena cls).testBit i = (regs.arena cls).testBit i := by
  unfold putPc
  split
  · rfl
  · rename_i r hr
    have hlt : vm.pc.toNat % 2 ^ r.size < 2 ^ r.size := Nat.mod_lt _ (Nat.two_pow_pos _)
    exact RegisterFile.testBit_put_of_not_holds hlt (h r hr)

/-- Writing variables changes no bit outside of their registers. -/
theorem testBit_putAll (hlt : ∀ r ∈ rs, number vm r.name < 2 ^ r.size) {cls : RegClass} {i : Nat}
    (h : ∀ r ∈ rs, ¬ r.Holds cls i) : ((putAll vm rs regs).arena cls).testBit i = (regs.arena cls).testBit i := by
  induction rs generalizing regs with
  | nil => rfl
  | cons r rs ih =>
    show ((putAll vm rs (regs.put r (number vm r.name))).arena cls).testBit i = _
    rw [ih (fun q hq => hlt q (List.mem_cons_of_mem _ hq)) fun q hq => h q (List.mem_cons_of_mem _ hq)]
    exact RegisterFile.testBit_put_of_not_holds (hlt r (List.mem_cons_self ..)) (h r (List.mem_cons_self ..))

/-- Writing an interpreter back and loading another one gives the second one every bound variable of the first one, and
no bit changes that belongs neither to a bound register nor to the program counter. -/
theorem variables_roundTrip {p : Profile} (hp : p.validate = .ok ()) {vm₁ vm₂ : Vm} (h₁ : vm₁.SetUpBy (.derive p))
    (h₂ : vm₂.SetUpBy (.derive p)) {regs : RegisterFile} (hregs : regs.profile = p) :
    ∃ whole regs' vm', toPhysical vm₁ regs = .ok whole regs' ∧ fromPhysical regs' vm₂ = .ok () vm' ∧
      (∀ b ∈ (Binding.derive p).items, ∃ x, vm₁.get? b.name = some x ∧ vm'.get? b.name = some x) ∧
      ∀ cls i, (∀ b ∈ (Binding.derive p).items, ∀ r, p.get? b.name = some r → ¬ r.Holds cls i) →
        (∀ r, p.pcRegister? = some r → ¬ r.Holds cls i) →
        (regs'.arena cls).testBit i = (regs.arena cls).testBit i := by
  subst hregs
  have hvalid := Profile.valid_of_validate hp
  have hsel := Binding.derive_selects hvalid
  have hlinked₁ := h₁.linked hvalid hsel
  have hlt : ∀ r ∈ Binding.registers regs.profile, number vm₁ r.name < 2 ^ r.size :=
    fun r hr => number_lt (hlinked₁.sorts r hr)
  have hcovers : ∀ r ∈ Binding.registers regs.profile, (putPc vm₁ regs).Covers r :=
    fun r hr => covers_putPc.2 (hlinked₁.covers r hr)
  obtain ⟨whole, hback⟩ := toPhysical_ok hlinked₁
  generalize hregs' : putAll vm₁ (Binding.registers regs.profile) (putPc vm₁ regs) = regs' at hback
  have hprofile : regs'.profile = regs.profile := by rw [← hregs', profile_putAll, profile_putPc]
  have hlinked₂ : Linked regs' (Binding.registers regs.profile) vm₂ :=
    h₂.linked (hprofile ▸ hvalid) (hprofile ▸ hsel)
  obtain ⟨pc, hload⟩ := fromPhysical_ok hlinked₂
  refine ⟨whole, regs', _, hback, hload, ?_, ?_⟩
  · intro b hb
    obtain ⟨r, hr, rfl⟩ := hsel.mem_items_iff.1 hb
    obtain ⟨x, hx, hsort⟩ := Option.map_eq_some_iff.1 (hlinked₁.sorts r hr)
    have hcontent : regs'.content r = x.toBits.toNat := by
      rw [← hregs', content_putAll (hsel.fits hvalid) hcovers hlt (Binding.registers_apart hvalid) hr, number_eq hx]
    have hvalue : regs'.value r = x := RegisterFile.value_eq_of_content (hsel.fits hvalid r hr) hsort hcontent
    refine ⟨x, hx, ?_⟩
    rw [← hvalue]
    exact get?_loadAll hlinked₂ hsel.nodup hr
  · intro cls i hbound hpc
    have hout : ∀ r ∈ Binding.registers regs.profile, ¬ r.Holds cls i := by
      intro r hr
      exact hbound r.bound (hsel.bound_mem hr) r (hsel.known r hr)
    rw [← hregs', testBit_putAll hlt hout, testBit_putPc hpc]

/-- A layout in which a register that is not bound has bits of a bound one and of the program counter. -/
theorem variables_roundTrip_overlapping :
    let p : Profile := ⟨[⟨"rcx", 0, 64, .gpr⟩, ⟨"mid", 48, 32, .gpr⟩, ⟨"zf", 6, 1, .flg⟩, ⟨"pc", 64, 32, .gpr⟩], some "pc"⟩
    let vm (n : Nat) (zf : Bool) : Vm :=
      { config := {}, pc := .ofNat 32 n (by decide), globals := [("rcx", .bits (.ofNat 64 n (by decide))), ("zf", .bool zf)],
        binding := some [⟨⟨"rcx", 64⟩, true⟩, ⟨⟨"zf", 1⟩, true⟩] }
    p.validate = .ok () ∧ (∀ n zf, (vm n zf).SetUpBy (.derive p)) ∧
      ∃ whole regs vm', toPhysical (vm 5 true) (.zeros p) = .ok whole regs ∧ fromPhysical regs (vm 7 false) = .ok () vm' ∧
        vm'.get? "rcx" = (vm 5 true).get? "rcx" ∧ vm'.get? "zf" = (vm 5 true).get? "zf" := by
  intro p vm
  have hp : p.validate = .ok () := by decide
  have hitems : (Binding.derive p).items = [⟨"rcx", 64⟩, ⟨"zf", 1⟩] := by decide
  have hvm : ∀ n zf, (vm n zf).SetUpBy (.derive p) := by
    intro n zf
    let before : Vm := { config := {}, pc := .zero 32 (Nat.succ_pos 31) }
    have hset : Vm.setupBinding (.derive p) before = _ := Vm.setupBinding_eq (by decide) (by decide) rfl rfl
    refine ⟨Nat.succ_pos 31, _, _, hset, rfl, ?_, ?_⟩
    · rw [hitems]
      rfl
    · rw [hitems]
      intro x hx
      simp only [List.mem_cons, List.not_mem_nil, or_false] at hx
      rcases hx with rfl | rfl
      · rfl
      · rfl
  have hregs : (RegisterFile.zeros p).profile = p := rfl
  obtain ⟨whole, regs, vm', hback, hload, hvars, -⟩ := variables_roundTrip hp (hvm 5 true) (hvm 7 false) hregs
  rw [hitems] at hvars
  obtain ⟨rcx, hrcx, hrcx'⟩ := hvars ⟨"rcx", 64⟩ (by decide)
  obtain ⟨zf, hzf, hzf'⟩ := hvars ⟨"zf", 1⟩ (by decide)
  exact ⟨hp, hvm, whole, regs, vm', hback, hload, hrcx'.trans hrcx.symm, hzf'.trans hzf.symm⟩

end Sync
end SuperH
