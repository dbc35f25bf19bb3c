import SuperH.Proofs.Cpu.Storage
import SuperH.Proofs.Vm.Policy

/-!
# Policies on operand access

* `Policy.Grants` : a policy lets a register be read and written;
* `Policy.Common` : a policy lets instructions touch what they use without naming it;
* `read_within`, `write_within`, `address_within` : an access to a granted operand keeps to the policy.
-/

namespace SuperH

variable {π : Policy}

attribute [simp] Cpu.word Flag.expr Flag.word Flag.assign

/-! ## Registers -/

/-- The variables behind a register may be touched. The second copy of a register in use is free where the policy
knows that bank 1 is not in use. -/
def Cpu.Storage.Granted (π : Policy) : Cpu.Storage → Prop
  | .inUse b0 b1 => (π.off bank1Selected ∨ π.vars Flag.md.var ∧ π.vars Flag.rb.var ∧ π.vars b1) ∧ π.vars b0
  | .status => ∀ flag : Flag, π.vars flag.var
  | .notInUse b0 b1 => π.vars Flag.rb.var ∧ π.vars b0 ∧ π.vars b1
  | .own name => π.vars name

namespace Policy

/-- The register of that index may be read and written. -/
def Grants (π : Policy) (index : Nat) : Prop := ∀ s, Cpu.storage index = .ok s → s.Granted π

/-- The register that the operand names, if any, may be read and written. -/
def GrantsOperand (π : Policy) (operand : Operand) : Prop := ∀ n, operand.register? = some n → π.Grants n

/-- What instructions use without naming it may be touched. -/
structure Common (π : Policy) : Prop where
  t : π.vars Flag.t.var
  s : π.vars Flag.s.var
  q : π.vars Flag.q.var
  m : π.vars Flag.m.var
  mach : π.vars "mach"
  macl : π.vars "macl"
  pr : π.vars "pr"
  r0 : π.Grants Cpu.r0
  gbr : π.Grants Cpu.gbr

end Policy

namespace Cpu

theorem statusExpr_within (h : ∀ flag : Flag, π.vars flag.var) : statusExpr.Within π := by
  simp [statusExpr, Flag.all, h]

theorem setStatus_within {value : Expr} (h : ∀ flag : Flag, π.vars flag.var) (hv : value.Within π) :
    (setStatus value).Within π := by
  simp [setStatus, h, hv]

theorem Storage.read_within {s : Storage} (h : s.Granted π) : s.read.Within π := by
  cases s with
  | inUse b0 b1 =>
    rcases h with ⟨hoff | ⟨hmd, hrb, h1⟩, h0⟩
    · simp [read, hoff, h0]
    · simp [read, bank1Selected, hmd, hrb, h0, h1]
  | status => exact statusExpr_within h
  | notInUse b0 b1 => simp [read, h.1, h.2.1, h.2.2]
  | own name => exact fun _ => h

theorem Storage.write_within {s : Storage} {value : Expr} (h : s.Granted π) (hv : value.Within π) :
    (s.write value).Within π := by
  cases s with
  | inUse b0 b1 =>
    rcases h with ⟨hoff | ⟨hmd, hrb, h1⟩, h0⟩
    · simp [write, hoff, h0, hv]
    · simp [write, bank1Selected, hmd, hrb, h0, h1, hv]
  | status => exact setStatus_within h hv
  | notInUse b0 b1 => simp [write, h.1, h.2.1, h.2.2, hv]
  | own name => exact ⟨fun _ => h, hv⟩

theorem getReg_within {n : Nat} {e : Expr} (h : π.Grants n) (he : getReg n = .ok e) : e.Within π := by
  obtain ⟨s, hs, rfl⟩ := getReg_eq_ok.1 he
  exact s.read_within (h s hs)

theorem setReg_within {n : Nat} {value : Expr} {e : Effect} (h : π.Grants n) (hv : value.Within π)
    (he : setReg n value = .ok e) : e.Within π := by
  obtain ⟨s, hs, rfl⟩ := setReg_eq_ok.1 he
  exact s.write_within (h s hs) hv

/-! ## Operands -/

variable {o : Operand} {size : AccessSize} {pc : Nat}

theorem effectiveAddress_within (hc : π.Common) (ho : π.GrantsOperand o) {e : Expr}
    (he : effectiveAddress o size pc = .ok (some e)) : e.Within π := by
  cases o with
  | reg n | immU v | immS v => cases he
  | indirect n | postInc n | preDec n =>
    obtain ⟨r, hr, he⟩ := Build.bind_eq_ok.1 he
    cases he
    exact getReg_within (ho n rfl) hr
  | displaced n disp =>
    obtain ⟨r, hr, he⟩ := Build.bind_eq_ok.1 he
    obtain ⟨bytes, -, he⟩ := Build.bind_eq_ok.1 he
    cases he
    simp [getReg_within (ho n rfl) hr]
  | indexed n =>
    obtain ⟨r, hr, he⟩ := Build.bind_eq_ok.1 he
    obtain ⟨r', hr', he⟩ := Build.bind_eq_ok.1 he
    cases he
    simp [getReg_within hc.r0 hr, getReg_within (ho n rfl) hr']
  | gbrDisp disp =>
    obtain ⟨r, hr, he⟩ := Build.bind_eq_ok.1 he
    obtain ⟨bytes, -, he⟩ := Build.bind_eq_ok.1 he
    cases he
    simp [getReg_within hc.gbr hr]
  | gbrIndexed =>
    obtain ⟨r, hr, he⟩ := Build.bind_eq_ok.1 he
    obtain ⟨r', hr', he⟩ := Build.bind_eq_ok.1 he
    cases he
    simp [getReg_within hc.gbr hr, getReg_within hc.r0 hr']
  | pcDisp disp =>
    obtain ⟨bytes, -, he⟩ := Build.bind_eq_ok.1 he
    cases he
    simp only [afterFetch]
    split <;> simp
  | pcRel8 disp | pcRel12 disp =>
    cases he
    simp [afterFetch, branchOffset]
  | pcReg n =>
    obtain ⟨r, hr, he⟩ := Build.bind_eq_ok.1 he
    cases he
    simp [afterFetch, getReg_within (ho n rfl) hr]

theorem address_within (hc : π.Common) (ho : π.GrantsOperand o) {e : Expr} (he : address o size pc = .ok e) :
    e.Within π := by
  obtain ⟨a, ha, he⟩ := Build.bind_eq_ok.1 he
  cases a with
  | none => cases he
  | some addr =>
    cases he
    exact effectiveAddress_within hc ho ha

/-- The value of an operand and the effects around its use keep to the policy. -/
structure OperandRead.Within (π : Policy) (r : OperandRead) : Prop where
  pre : ∀ e ∈ r.pre, e.Within π
  value : r.value.Within π
  post : ∀ e ∈ r.post, e.Within π

theorem within_none : ∀ e ∈ (none : Option Effect), e.Within π := fun e he => absurd he (Option.not_mem_none e)

theorem within_some {e : Effect} (h : e.Within π) : ∀ e' ∈ some e, e'.Within π :=
  fun _ he => Option.some.inj he ▸ h

theorem around_within {pre post : Option Effect} {target : Effect} (hpre : ∀ e ∈ pre, e.Within π)
    (ht : target.Within π) (hpost : ∀ e ∈ post, e.Within π) : (around pre target post).Within π := by
  unfold around
  split
  · exact ht
  · rw [Effect.within_sequence]
    intro e he
    simp only [List.mem_append, Option.mem_toList, List.mem_singleton] at he
    rcases he with (he | rfl) | he
    · exact hpre e he
    · exact ht
    · exact hpost e he

theorem lowBits_within {e : Expr} (he : e.Within π) : (lowBits size e).Within π := by
  cases size <;> exact he

theorem read_within (hc : π.Common) (ho : π.GrantsOperand o) {r : OperandRead} (hr : read o size pc = .ok r) :
    r.Within π := by
  have load {a : Expr} {bits : Nat} (ha : address o size pc = .ok a) : (Expr.load bits a).Within π := by
    simpa using address_within hc ho ha
  cases o with
  | reg n =>
    obtain ⟨e, he, hr⟩ := Build.bind_eq_ok.1 hr
    cases hr
    exact ⟨within_none, lowBits_within (getReg_within (ho n rfl) he), within_none⟩
  | immU v | immS v =>
    cases hr
    refine ⟨within_none, ?_, within_none⟩
    cases size <;> trivial
  | postInc n =>
    obtain ⟨bytes, -, hr⟩ := Build.bind_eq_ok.1 hr
    obtain ⟨bits, -, hr⟩ := Build.bind_eq_ok.1 hr
    obtain ⟨a, ha, hr⟩ := Build.bind_eq_ok.1 hr
    obtain ⟨e, he, hr⟩ := Build.bind_eq_ok.1 hr
    obtain ⟨post, hpost, hr⟩ := Build.bind_eq_ok.1 hr
    cases hr
    have hpost : post.Within π := setReg_within (ho n rfl) (by simp [getReg_within (ho n rfl) he]) hpost
    exact ⟨within_none, load ha, within_some hpost⟩
  | preDec n =>
    obtain ⟨bytes, -, hr⟩ := Build.bind_eq_ok.1 hr
    obtain ⟨e, he, hr⟩ := Build.bind_eq_ok.1 hr
    obtain ⟨pre, hpre, hr⟩ := Build.bind_eq_ok.1 hr
    obtain ⟨bits, -, hr⟩ := Build.bind_eq_ok.1 hr
    obtain ⟨a, ha, hr⟩ := Build.bind_eq_ok.1 hr
    cases hr
    have hpre : pre.Within π := setReg_within (ho n rfl) (by simp [getReg_within (ho n rfl) he]) hpre
    exact ⟨within_some hpre, load ha, within_none⟩
  | indirect | displaced | indexed | gbrDisp | gbrIndexed | pcDisp | pcRel8 | pcRel12 | pcReg =>
    obtain ⟨bits, -, hr⟩ := Build.bind_eq_ok.1 hr
    obtain ⟨a, ha, hr⟩ := Build.bind_eq_ok.1 hr
    cases hr
    exact ⟨within_none, load ha, within_none⟩

theorem write_within (hc : π.Common) (ho : π.GrantsOperand o) {value : Expr} (hv : value.Within π) {e : Effect}
    (he : write o value size pc = .ok e) : e.Within π := by
  cases o with
  | reg n =>
    cases size with
    | byte | word => exact setReg_within (ho n rfl) (by simpa using hv) he
    | unsized | long => exact setReg_within (ho n rfl) hv he
  | immU v | immS v => cases he
  | indirect | postInc | preDec | displaced | indexed | gbrDisp | gbrIndexed | pcDisp | pcRel8 | pcRel12 | pcReg =>
    obtain ⟨access, hr, he⟩ := Build.bind_eq_ok.1 he
    obtain ⟨a, ha, he⟩ := Build.bind_eq_ok.1 he
    cases he
    have hr := read_within hc ho hr
    exact around_within hr.pre ⟨address_within hc ho ha, hv⟩ hr.post

end Cpu
end SuperH
