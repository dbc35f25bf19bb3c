import SuperH.Proofs.Cpu.Attached
import SuperH.Proofs.Lift.Policy

/-!
# What a program in user mode may touch

* `Cpu.privilegedNames`, `Cpu.userNames` : the bound registers that user mode is kept from, and all others;
* `Insn.WellFormed` : operands name the general registers, and transfers to and from control registers also those;
* `Insn.IsPrivileged` : the instructions that user mode is refused;
* `Policy.user` : the privileged registers are withheld, bank 1 is known not to be in use, and nothing is raised;
* `lift_user` : in user mode a well-formed instruction is refused or keeps to the policy.
-/

namespace SuperH

namespace Cpu

/-- The registers that user mode is kept from. -/
def privilegedNames : List String :=
  ["sr_d", "sr_r", "sr_b", "sr_f", "sr_i", "ssr", "spc", "sgr", "dbr", "vbr"] ++ bankNames

/-- The registers of user mode, apart from the program counter. -/
def userNames : List String := generalNames ++ ["gbr", "mach", "macl", "pr", "sr_t", "sr_s", "sr_q", "sr_m"]

theorem boundRegs_split : ∀ r ∈ boundRegs, r.name ∈ privilegedNames ∨ r.name ∈ userNames := by decide

theorem exists_of_privileged : ∀ n ∈ privilegedNames, ∃ r ∈ boundRegs, r.name = n := by decide

theorem exists_of_user : ∀ n ∈ userNames, ∃ r ∈ boundRegs, r.name = n ∧ n ∉ privilegedNames := by decide

end Cpu

/-! ## Instructions -/

/-- The operand is a register with a property. -/
def Operand.IsReg (p : Nat → Prop) : Operand → Prop
  | .reg n => p n
  | _ => False

/-- The operand may stand at a position: it names general registers only, but transfers to and from control registers
name any register, and those to and from the system registers one of these. -/
def Operand.Admissible (mnemonic : Mnemonic) (index : Nat) (o : Operand) : Prop :=
  match mnemonic, index with
  | .ldc, 1 | .stc, 0 => o.IsReg (· < Cpu.regCount)
  | .lds, 1 | .sts, 0 => o.IsReg fun n => n = Cpu.mach ∨ n = Cpu.macl ∨ n = Cpu.pr
  | _, _ => ∀ n, o.register? = some n → n < 16

/-- Every operand may stand where it does. -/
def Insn.WellFormed (insn : Insn) : Prop :=
  ∀ (index : Nat) (o : Operand), insn.operands[index]? = some o → o.Admissible insn.mnemonic index

/-- The instruction is refused in user mode: RTE, SLEEP, and LDC and STC unless their control operand is GBR. -/
def Insn.IsPrivileged (insn : Insn) : Prop :=
  match insn.mnemonic with
  | .rte | .sleep => True
  | .ldc => insn.operands[1]? ≠ some (.reg Cpu.gbr)
  | .stc => insn.operands[0]? ≠ some (.reg Cpu.gbr)
  | _ => False

/-- Away from the transfers only the general registers count. -/
theorem Insn.wellFormed_of_general {insn : Insn} (hm : insn.mnemonic ∉ [.ldc, .stc, .lds, .sts])
    (h : ∀ o ∈ insn.operands, ∀ n ∈ o.register?, n < 16) : insn.WellFormed := by
  intro index o ho
  have hgeneral : ∀ n, o.register? = some n → n < 16 := h o (List.mem_of_getElem? ho)
  unfold Operand.Admissible
  split
  · rename_i hldc
    rw [hldc] at hm
    exact absurd (by decide) hm
  · rename_i hstc
    rw [hstc] at hm
    exact absurd (by decide) hm
  · rename_i hlds
    rw [hlds] at hm
    exact absurd (by decide) hm
  · rename_i hsts
    rw [hsts] at hm
    exact absurd (by decide) hm
  · exact hgeneral

theorem Operand.IsReg.eq {p : Nat → Prop} {o : Operand} (h : o.IsReg p) : ∃ n, o = .reg n ∧ p n := by
  cases o with
  | reg n => exact ⟨n, rfl, h⟩
  | _ => exact h.elim

/-- A register operand is GBR if the register that it names is. -/
theorem Context.register?_eq_gbr (cx : Context) (index : Nat)
    (h : ∀ o, cx.insn.operands[index]? = some o → ∃ n, o = .reg n) :
    cx.register? index = some Cpu.gbr ↔ cx.insn.operands[index]? = some (.reg Cpu.gbr) := by
  unfold Context.register?
  cases ho : cx.insn.operands[index]? with
  | none => simp
  | some o =>
    obtain ⟨n, rfl⟩ := h o ho
    simp [Operand.register?]

theorem Insn.WellFormed.needsPrivilege_iff {insn : Insn} (h : insn.WellFormed) (pc : Nat) :
    Lift.needsPrivilege ⟨insn, pc⟩ = true ↔ insn.IsPrivileged := by
  have hreg (index : Nat) (hp : ∀ o : Operand, o.Admissible insn.mnemonic index → o.IsReg (· < Cpu.regCount)) (o : Operand)
      (ho : insn.operands[index]? = some o) : ∃ n, o = .reg n := by
    obtain ⟨n, rfl, -⟩ := (hp o (h index o ho)).eq
    exact ⟨n, rfl⟩
  unfold Lift.needsPrivilege IsPrivileged
  dsimp only
  cases hm : insn.mnemonic
  case rte | sleep => simp
  case ldc =>
    have hgbr := Context.register?_eq_gbr ⟨insn, pc⟩ 1 (hreg 1 fun o ho => by rwa [hm] at ho)
    simp [hgbr]
  case stc =>
    have hgbr := Context.register?_eq_gbr ⟨insn, pc⟩ 0 (hreg 0 fun o ho => by rwa [hm] at ho)
    simp [hgbr]
  all_goals simp

/-! ## The policy of user mode -/

/-- The privileged registers are withheld, bank 1 is known not to be in use, and nothing is raised. -/
def Policy.user : Policy := ⟨(· ∉ Cpu.privilegedNames), (· = Cpu.bank1Selected), False⟩

namespace Cpu

/-- The variables of a register that user mode reaches. The flags together and the bank that is not in use count as
privileged. -/
def Storage.userPart : Storage → List String
  | .inUse b0 _ => [b0]
  | .own name => [name]
  | .status | .notInUse _ _ => [Flag.md.var]

theorem Storage.granted_user {s : Storage} (h : ∀ n ∈ s.userPart, n ∉ privilegedNames) : s.Granted .user := by
  cases s with
  | inUse b0 b1 => exact ⟨.inl rfl, h b0 (List.mem_singleton_self _)⟩
  | own name => exact h name (List.mem_singleton_self _)
  | status | notInUse _ _ => exact absurd (by decide) (h Flag.md.var (List.mem_singleton_self _))

/-- The registers that an instruction of user mode may name. -/
def userRegs : List Nat := List.range 16 ++ [gbr, mach, macl, pr]

theorem grants_user {n : Nat} (h : n ∈ userRegs) : Policy.user.Grants n := by
  have hall : ∀ i ∈ userRegs, ∀ s ∈ (storage i).toOption, ∀ v ∈ s.userPart, v ∉ privilegedNames := by decide
  intro s hs
  exact s.granted_user (hall n h s (by rw [hs]; rfl))

theorem common_user : Policy.user.Common where
  t := (by decide : "sr_t" ∉ privilegedNames)
  s := (by decide : "sr_s" ∉ privilegedNames)
  q := (by decide : "sr_q" ∉ privilegedNames)
  m := (by decide : "sr_m" ∉ privilegedNames)
  mach := (by decide : "mach" ∉ privilegedNames)
  macl := (by decide : "macl" ∉ privilegedNames)
  pr := (by decide : "pr" ∉ privilegedNames)
  r0 := grants_user (by decide)
  gbr := grants_user (by decide)

end Cpu

/-- An instruction that user mode is not refused names registers of user mode only. -/
theorem Insn.WellFormed.granted {insn : Insn} (h : insn.WellFormed) (hp : ¬ insn.IsPrivileged) (pc : Nat) :
    Context.Granted .user ⟨insn, pc⟩ := by
  intro o ho n hn
  obtain ⟨index, hindex⟩ := List.getElem?_of_mem ho
  refine Cpu.grants_user ?_
  have hadm := h index o hindex
  unfold Operand.Admissible at hadm
  unfold IsPrivileged at hp
  split at hadm
  · -- the control operand of LDC
    rename_i hm
    rw [hm] at hp
    cases hindex.symm.trans (Decidable.not_not.1 hp)
    cases hn
    decide
  · -- the control operand of STC
    rename_i hm
    rw [hm] at hp
    cases hindex.symm.trans (Decidable.not_not.1 hp)
    cases hn
    decide
  · obtain ⟨k, rfl, hk⟩ := hadm.eq
    cases hn
    rcases hk with rfl | rfl | rfl <;> decide
  · obtain ⟨k, rfl, hk⟩ := hadm.eq
    cases hn
    rcases hk with rfl | rfl | rfl <;> decide
  · exact List.mem_append_left _ (List.mem_range.2 (hadm n hn))

/-- In user mode a well-formed instruction is refused, or it keeps to the policy. -/
theorem lift_user {insn : Insn} (h : insn.WellFormed) (pc : Nat) :
    insn.IsPrivileged ∧ lift insn pc false = .ok (.exception reservedInstruction) ∨
      ¬ insn.IsPrivileged ∧ ∀ lifted, lift insn pc false = .ok lifted → ∃ e, lifted = .effect e ∧ e.Within .user := by
  by_cases hp : insn.IsPrivileged
  · refine .inl ⟨hp, ?_⟩
    unfold lift
    dsimp only
    rw [(h.needsPrivilege_iff pc).2 hp]
    rfl
  · refine .inr ⟨hp, fun lifted hlift => ?_⟩
    have hneeds : Lift.needsPrivilege ⟨insn, pc⟩ = false := by
      rw [← Bool.not_eq_true, h.needsPrivilege_iff pc]
      exact hp
    unfold lift at hlift
    dsimp only at hlift
    rw [hneeds] at hlift
    obtain ⟨e, he, rfl⟩ := Build.map_eq_ok.1 hlift
    refine ⟨e, rfl, Lift.effect_within Cpu.common_user (h.granted hp pc) (fun hrte => ?_) he⟩
    unfold Insn.IsPrivileged at hp
    rw [show insn.mnemonic = .rte from hrte] at hp
    exact absurd trivial hp

end SuperH
