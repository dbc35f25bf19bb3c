import SuperH.Proofs.Vm.SetUp

/-!
# The program counter in the registers

The program counter is written back before the bound variables, so it is kept exactly if none of them reaches into it.

* `Profile.PcApart` : no bound register has a bit in common with the program counter;
* `Sync.KeepsPc` : the program counter reads back as it was written, whatever the interpreter holds;
* `Sync.keepsPc_iff` : the two are the same;
* `Machine.step_advances` : an instruction that does not jump moves the program counter past itself.
-/

namespace SuperH

/-- No register of the derived binding has a bit in common with the program counter. -/
def Profile.PcApart (p : Profile) : Prop :=
  ∀ b ∈ (Binding.derive p).items, ∀ r ∈ p.get? b.name, ∀ pc ∈ p.pcRegister?, r.overlaps pc = false

instance (p : Profile) : Decidable p.PcApart :=
  inferInstanceAs (Decidable (∀ b ∈ (Binding.derive p).items, ∀ r ∈ p.get? b.name, ∀ pc ∈ p.pcRegister?,
    r.overlaps pc = false))

/-- After every write-back the register of the program counter holds the interpreter's program counter, cut or extended
to the size of the register. -/
def Sync.KeepsPc (p : Profile) : Prop :=
  ∀ vm regs, vm.SetUpBy (.derive p) → regs.profile = p → ∀ pc, p.pcRegister? = some pc →
    ∃ whole regs' v, toPhysical vm regs = .ok whole regs' ∧ fit vm.pc pc.size = .ok v ∧
      regs'.getBits pc.name = .ok (some v)

/-! ## Writing the program counter back -/

theorem Profile.PcApart.apart {p : Profile} (h : p.PcApart) (hp : p.Valid) {pc : Register}
    (hpc : p.pcRegister? = some pc) : ∀ r ∈ Binding.registers p, pc.Apart r := by
  intro r hr
  have hsel := Binding.derive_selects hp
  have hapart : r.Apart pc := h r.bound (hsel.bound_mem hr) r (hsel.known r hr) pc hpc
  exact hapart.symm

theorem Bound.toNat_blank (b : Bound) : b.blank.toBits.toNat = 0 := by
  unfold blank
  split
  · rfl
  split
  · have hzero : (Bits.zero b.size ‹_›).toNat = Limbs.value [] % 2 ^ b.size := Bits.toNat_ofLimbs (by simp)
    rw [Value.toBits, hzero]
    exact Nat.zero_mod _
  · rfl

/-- Setting up a derived binding leaves every bound variable at zero, whatever the program counter. -/
theorem Vm.exists_setUpBy_derive {p : Profile} (hp : p.Valid) {width : Nat} (hpos : 0 < width) (n : Nat) :
    ∃ vm : Vm, vm.SetUpBy (.derive p) ∧ vm.pc = .ofNat width n hpos ∧
      ∀ r ∈ Binding.registers p, Sync.number vm r.name = 0 := by
  have hsel := Binding.derive_selects hp
  let before : Vm := { config := { pcBits := width }, pc := .ofNat width n hpos }
  have hset : setupBinding (.derive p) before = _ := setupBinding_eq hsel.items_nodup (hsel.size_pos hp) rfl rfl
  refine ⟨_, .of_setupBinding hset hpos, rfl, ?_⟩
  intro r hr
  refine (Sync.number_eq ?_).trans (Bound.toNat_blank r.bound)
  exact Env.lookup_map Bound.blank hsel.items_nodup (hsel.bound_mem hr)

namespace Sync

variable {p : Profile} {regs : RegisterFile} {rs : List Register} {vm : Vm} {r pc : Register}

theorem getBits_eq_fit_iff (hp : regs.profile.Valid) (hr : regs.profile.get? r.name = some r) (x : Bits) :
    (∃ v, fit x r.size = .ok v ∧ regs.getBits r.name = .ok (some v)) ↔ regs.content r = x.toNat % 2 ^ r.size := by
  have hpos := (hp.fits_of_get? hr).pos
  have hlt : regs.content r < 2 ^ r.size := RegisterFile.content_lt
  rw [fit_eq x hpos, RegisterFile.getBits_eq hp hr]
  constructor
  · rintro ⟨v, hv, hread⟩
    cases hv
    have hbits : Bits.ofNat r.size (regs.content r) hpos = x.setWidth r.size hpos := by
      injection hread with h
      injection h
    have hnat := congrArg Bits.toNat hbits
    rw [Bits.toNat_ofNat, Bits.toNat_setWidth, Nat.mod_eq_of_lt hlt] at hnat
    exact hnat
  · intro hcontent
    refine ⟨_, rfl, congrArg (Except.ok ∘ some) (Bits.ext_toNat rfl ?_)⟩
    rw [Bits.toNat_ofNat, Bits.toNat_setWidth, Nat.mod_eq_of_lt hlt, hcontent]

/-- The program counter survives if its register has the right content after the bound variables are written, too. -/
theorem keepsPc_iff_content (hp : p.Valid) : KeepsPc p ↔ ∀ (vm : Vm) (regs : RegisterFile), vm.SetUpBy (.derive p) →
    regs.profile = p → ∀ pc, p.pcRegister? = some pc →
      (putAll vm (Binding.registers p) (regs.put pc (vm.pc.toNat % 2 ^ pc.size))).content pc =
        vm.pc.toNat % 2 ^ pc.size := by
  refine forall₄_congr fun vm regs hvm hregs => forall₂_congr fun pc hpc => ?_
  subst hregs
  have hlinked := hvm.linked hp (Binding.derive_selects hp)
  have hprofile : (putAll vm (Binding.registers regs.profile) (regs.put pc (vm.pc.toNat % 2 ^ pc.size))).profile =
      regs.profile := profile_putAll
  have hget := Profile.get?_of_pcRegister? hpc
  have hread := getBits_eq_fit_iff (hprofile ▸ hp) (hprofile ▸ hget) vm.pc
  rw [← hread, toPhysical_eq hlinked hpc]
  constructor
  · rintro ⟨whole, regs', v, hback, hfit, hbits⟩
    cases hback
    exact ⟨v, hfit, hbits⟩
  · rintro ⟨v, hfit, hbits⟩
    exact ⟨_, _, v, rfl, hfit, hbits⟩

/-- A program counter that is apart from every bound register holds what was written to it first. -/
theorem content_pc (h : Linked regs rs vm) (hpc : regs.profile.pcRegister? = some pc) (hapart : ∀ r ∈ rs, pc.Apart r) :
    (putAll vm rs (regs.put pc (vm.pc.toNat % 2 ^ pc.size))).content pc = vm.pc.toNat % 2 ^ pc.size := by
  have hfits : ∀ r ∈ rs, r.Fits := fun r hr => h.valid.fits_of_get? (h.known r hr)
  have hpcFits : pc.Fits := h.valid.fits_of_get? (Profile.get?_of_pcRegister? hpc)
  have hlt : ∀ r ∈ rs, number vm r.name < 2 ^ r.size := fun r hr => number_lt (h.sorts r hr)
  rw [content_putAll_of_apart hpcFits hfits hlt hapart]
  exact RegisterFile.content_put_self (RegisterFile.covers_of_get? h.valid (Profile.get?_of_pcRegister? hpc))
    (Nat.mod_lt _ (Nat.two_pow_pos _))

/-- The program counter survives every write-back exactly if no bound register has a bit in common with it. -/
theorem keepsPc_iff (hp : p.validate = .ok ()) : KeepsPc p ↔ p.PcApart := by
  have hvalid := Profile.valid_of_validate hp
  have hsel := Binding.derive_selects hvalid
  rw [keepsPc_iff_content hvalid]
  constructor
  · intro hkeeps b hb r hr pc hpc
    obtain ⟨s, hs, rfl⟩ := hsel.mem_items_iff.1 hb
    cases (hsel.known s hs).symm.trans hr
    have hpcFits := hvalid.fits_of_get? (Profile.get?_of_pcRegister? hpc)
    -- a program counter of ones, and zero in every bound variable
    obtain ⟨vm, hvm, hones, hzero⟩ := Vm.exists_setUpBy_derive hvalid hpcFits.pos (2 ^ pc.size - 1)
    have hlinked : Linked (.zeros p) (Binding.registers p) vm := hvm.linked hvalid hsel
    have hlt : ∀ q ∈ Binding.registers p, number vm q.name < 2 ^ q.size := fun q hq => number_lt (hlinked.sorts q hq)
    have hpcContent := hkeeps vm (.zeros p) hvm rfl pc hpc
    have hlarge : 2 ^ pc.size - 1 < 2 ^ pc.size := Nat.sub_lt (Nat.two_pow_pos _) Nat.one_pos
    rw [hones, Bits.toNat_ofNat, Nat.mod_mod, Nat.mod_eq_of_lt hlarge] at hpcContent
    refine RegisterFile.apart_of_content (hsel.fits hvalid r hs) hpcFits ?_ hpcContent
    have hcovers : ∀ q ∈ Binding.registers p, ((RegisterFile.zeros p).put pc (2 ^ pc.size - 1)).Covers q :=
      fun q hq => RegisterFile.covers_put.2 (hlinked.covers q hq)
    rw [content_putAll (hsel.fits hvalid) hcovers hlt (Binding.registers_apart hvalid) hs, hzero r hs]
  · rintro hapart vm regs hvm rfl pc hpc
    exact content_pc (hvm.linked hvalid hsel) hpc (hapart.apart hvalid hpc)

end Sync

/-! ## Moving past an instruction -/

theorem Vm.advance_meets {vm₀ : Vm} (hw : vm₀.pc.width = vm₀.config.pcBits) (size : Nat) :
    Meets (fun vm => vm.config = vm₀.config ∧ (vm.jumped = false → vm.pc = vm₀.pc)) (advance size)
      (fun _ vm => vm.jumped = false → vm.pc.toNat = (vm₀.pc.toNat + size) % 2 ^ vm₀.config.pcBits)
      (fun _ _ => True) := by
  rintro vm ⟨hconfig, hpc⟩
  cases hj : vm.jumped with
  | true =>
    rw [advance_eq_dite, if_pos hj]
    intro hj'
    rw [hj] at hj'
    cases hj'
  | false =>
    have hpc' := hpc hj
    have hpos : 0 < vm.config.pcBits := by
      rw [hconfig, ← hw]
      exact vm₀.pc.width_pos
    have hwidth : vm.pc.width = vm.config.pcBits := by rw [hpc', hconfig, hw]
    rw [advance_eq hpos hwidth, hj]
    intro _
    show (vm.pc + .ofNat vm.config.pcBits size hpos).toNat = _
    rw [Bits.toNat_add hwidth, Bits.toNat_ofNat, hwidth, Nat.add_mod_mod, hpc', hconfig]

/-- An instruction that has not jumped when it is over has moved the program counter by its size. -/
theorem Machine.step_advances {σ : Type} [Bus σ] {lifted : Lifted} {size : Nat} {m m' : Machine σ}
    (hw : m.vm.pc.width = m.vm.config.pcBits) (h : step lifted size m = .ok () m') (hj : m'.vm.jumped = false) :
    m'.vm.pc.toNat = (m.vm.pc.toNat + size) % 2 ^ m.vm.config.pcBits := by
  let P : Vm → Prop := fun vm => vm.config = m.vm.config ∧ (vm.jumped = false → vm.pc = m.vm.pc)
  -- until it jumps, an effect leaves the program counter alone
  have hclosed : Policy.any.Closed P := by
    constructor
    · intro vm name old value _ _ _ hP
      exact hP
    · intro vm name value hP
      exact hP
    · intro vm target hpos hP
      exact ⟨hP.1, nofun⟩
    · intro vm name _ hP
      exact hP
  have hbegin : Meets (fun n => n = m) (onVm Vm.begin : SuperH.Run σ Unit) (fun _ n => P n.vm) (fun _ _ => True) := by
    rintro n rfl
    exact ⟨rfl, fun _ => rfl⟩
  have hadvance := Meets.liftVm (σ := σ) (Vm.advance_meets hw size)
  have hstep : Meets (fun n => n = m) (step lifted size)
      (fun _ n => n.vm.jumped = false → n.vm.pc.toNat = (m.vm.pc.toNat + size) % 2 ^ m.vm.config.pcBits)
      (fun _ _ => True) := by
    cases lifted with
    | effect e =>
      have hexec := exec_keeps (σ := σ) Policy.any_refutes hclosed e.within_any
      have hrun := hexec.mono (fun _ h => h) (fun _ _ h => h) fun _ _ _ => trivial
      exact hbegin.bind fun _ => hrun.bind fun _ => hadvance
    | exception name =>
      have hraise : Meets (fun n : Machine σ => P n.vm) (onVm (Vm.raise name)) (fun _ n => P n.vm) (fun _ _ => True) := by
        intro n hP
        exact hclosed.raise trivial hP
      exact hbegin.bind fun _ => hraise.bind fun _ => hadvance
  have hmeets := hstep m rfl
  rw [h] at hmeets
  exact hmeets hj

end SuperH
