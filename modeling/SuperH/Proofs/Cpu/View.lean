import SuperH.Cpu.Registers
import SuperH.Proofs.Register.Selection

/-!
# The machine's registers

* `Cpu.boundRegs`, `Cpu.pcReg` : the registers that the interpreter works on, each apart from the others; those that
  are flags are `Cpu.flagReg`;
* `Cpu.get_eq`, `Cpu.pc_eq`, `Cpu.setPc_eq` : access to them by name;
* `Cpu.getBits_inj` : two register files answer alike for a name if their contents agree there.
-/

namespace SuperH

namespace Cpu

/-! ## The bound registers -/

/-- The registers that the layout's binding binds. -/
def boundRegs : List Register :=
  RegClass.all.flatMap fun cls => Binding.deriveClass profile.pc (profile.ofClass cls)

/-- The register of the program counter. -/
def pcReg : Register := ⟨"pc", 832, 32, .gpr⟩

theorem profile_validate : profile.validate = .ok () := by decide

theorem profile_valid : profile.Valid := Profile.valid_of_validate profile_validate

theorem boundRegs_selects : (Binding.derive profile).Selects profile boundRegs := Binding.derive_selects profile_valid

theorem boundRegs_known : ∀ r ∈ boundRegs, profile.get? r.name = some r := boundRegs_selects.known

theorem boundRegs_nodup : (boundRegs.map (·.name)).Nodup := boundRegs_selects.nodup

theorem boundRegs_apart : boundRegs.Pairwise Register.Apart := Binding.registers_apart profile_valid

theorem pcRegister_eq : profile.pcRegister? = some pcReg := by decide

theorem pcReg_apart : ∀ r ∈ boundRegs, pcReg.Apart r := by
  have h : ∀ r ∈ boundRegs, pcReg.overlaps r = false := by decide
  exact h

theorem boundRegs_fits : ∀ r ∈ boundRegs, r.Fits := fun r hr => profile_valid.fits_of_get? (boundRegs_known r hr)

theorem pcReg_known : profile.get? pcReg.name = some pcReg := Profile.get?_of_pcRegister? pcRegister_eq

theorem pcReg_fits : pcReg.Fits := profile_valid.fits_of_get? pcReg_known

/-- The register of a flag. -/
def flagReg (flag : Flag) : Register := ⟨flag.var, 32 * sr + flag.bit, 1, .gpr⟩

theorem flagReg_mem (flag : Flag) : flagReg flag ∈ boundRegs := by
  have hall : ∀ f ∈ Flag.all, flagReg f ∈ boundRegs := by decide
  exact hall flag (by cases flag <;> decide)

/-! ## Access by name -/

variable {regs regs' : RegisterFile} {r : Register}

theorem get_eq (hp : regs.profile = profile) (hr : profile.get? r.name = some r) (hsize : r.size ≤ 64) :
    regs.get r.name = .ok (some (regs.content r)) := by
  have hget : regs.profile.get? r.name = some r := hp ▸ hr
  have hlt : regs.content r < 2 ^ 64 :=
    Nat.lt_of_lt_of_le RegisterFile.content_lt (Nat.pow_le_pow_right (by decide) hsize)
  unfold RegisterFile.get
  rw [RegisterFile.getBits_eq (hp ▸ profile_valid) hget]
  show Except.ok (some (Bits.low64 _)) = _
  rw [Bits.low64_eq, Bits.toNat_ofNat, Nat.mod_eq_of_lt RegisterFile.content_lt, Nat.mod_eq_of_lt hlt]

theorem pc_eq (hp : regs.profile = profile) : regs.pc = .ok (some (regs.content pcReg)) := by
  unfold RegisterFile.pc
  rw [hp]
  exact get_eq hp pcReg_known (by decide)

theorem setPc_eq (hp : regs.profile = profile) (n : Nat) :
    RegisterFile.setPc n regs = .ok true (regs.put pcReg (n % 2 ^ 32)) := by
  have hget : regs.profile.get? pcReg.name = some pcReg := hp ▸ pcReg_known
  refine (bind_of_ok rfl).trans ?_
  rw [hp]
  exact RegisterFile.set_eq (hp ▸ profile_valid) hget n

theorem getBits_inj (hp : regs.profile = profile) (hp' : regs'.profile = profile) (hr : profile.get? r.name = some r) :
    regs.getBits r.name = regs'.getBits r.name ↔ regs.content r = regs'.content r := by
  have hget : regs.profile.get? r.name = some r := hp ▸ hr
  have hget' : regs'.profile.get? r.name = some r := hp' ▸ hr
  rw [RegisterFile.getBits_eq (hp ▸ profile_valid) hget, RegisterFile.getBits_eq (hp' ▸ profile_valid) hget']
  constructor
  · intro h
    have hbits := congrArg Bits.toNat (Option.some.inj (Except.ok.inj h))
    rwa [Bits.toNat_ofNat, Bits.toNat_ofNat, Nat.mod_eq_of_lt RegisterFile.content_lt,
      Nat.mod_eq_of_lt RegisterFile.content_lt] at hbits
  · intro h
    rw [h]

end Cpu
end SuperH
