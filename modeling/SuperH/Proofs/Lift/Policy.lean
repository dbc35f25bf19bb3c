import SuperH.Proofs.Cpu.Policy
import SuperH.Proofs.Lift.Form

/-!
# Policies on instructions

* `Context.Granted` : a policy lets every register be touched that an operand names;
* `effect_within` : the effect of an instruction with granted operands keeps to the policy;
* `effect_quiet` : no instruction raises an exception from within its effect.
-/

namespace SuperH

/-- Every register that an operand names may be read and written. -/
def Context.Granted (π : Policy) (cx : Context) : Prop := ∀ o ∈ cx.insn.operands, π.GrantsOperand o

namespace Lift

open SuperH.Expr SuperH.Effect SuperH.Cpu

variable {π : Policy} {cx : Context} (hc : π.Common) (ho : cx.Granted π)

/-! ## Operands by position -/

theorem operand_eq_ok {index : Nat} {o : Operand} (h : cx.operand index = .ok o) : cx.insn.operands[index]? = some o := by
  unfold Context.operand at h
  split at h
  · cases h
    assumption
  · cases h

include ho in
theorem operand_granted {index : Nat} {o : Operand} (h : cx.operand index = .ok o) : π.GrantsOperand o :=
  ho o (List.mem_of_getElem? (operand_eq_ok h))

include hc ho

theorem read_within {index : Nat} {size : AccessSize} {r : OperandRead} (h : cx.read index size = .ok r) :
    r.Within π := by
  obtain ⟨o, h₁, h₂⟩ := Build.bind_eq_ok.1 h
  exact Cpu.read_within hc (operand_granted ho h₁) h₂

theorem value_within {index : Nat} {size : AccessSize} {e : Expr} (h : cx.value index size = .ok e) :
    e.Within π := by
  obtain ⟨r, h₁, h₂⟩ := Build.bind_eq_ok.1 h
  cases h₂
  exact (read_within hc ho h₁).value

theorem write_within {index : Nat} {size : AccessSize} {value : Expr} {e : Effect} (hv : value.Within π)
    (h : cx.write index value size = .ok e) : e.Within π := by
  obtain ⟨o, h₁, h₂⟩ := Build.bind_eq_ok.1 h
  exact Cpu.write_within hc (operand_granted ho h₁) hv h₂

theorem address_within {index : Nat} {e : Expr} (h : cx.address index = .ok e) : e.Within π := by
  obtain ⟨o, h₁, h₂⟩ := Build.bind_eq_ok.1 h
  exact Cpu.address_within hc (operand_granted ho h₁) h₂

/-! ## Moves -/

variable {e : Effect}

theorem move_within (h : move cx = .ok e) : e.Within π := by
  obtain ⟨source, hsource, h⟩ := Build.bind_eq_ok.1 h
  obtain ⟨target, htarget, h⟩ := Build.bind_eq_ok.1 h
  obtain ⟨o, -, h⟩ := Build.bind_eq_ok.1 h
  obtain ⟨o', -, h⟩ := Build.bind_eq_ok.1 h
  cases h
  have hs := read_within hc ho hsource
  refine around_within hs.pre (write_within hc ho hs.value htarget) fun e he => hs.post e ?_
  unfold postOfMove at he
  split at he
  · split at he
    · cases he
    · exact he
  · exact he

theorem moveCondition_within (h : moveCondition cx = .ok e) : e.Within π :=
  write_within hc ho (by simp [hc.t]) h

theorem swap_within (h : swap cx = .ok e) : e.Within π := by
  rw [swap_eq] at h
  obtain ⟨swapped, hswapped, h⟩ := Build.bind_eq_ok.1 h
  obtain ⟨value, hvalue, h⟩ := Build.bind_eq_ok.1 h
  obtain ⟨target, htarget, h⟩ := Build.bind_eq_ok.1 h
  cases h
  have hs : swapped.Within π := by
    cases hsize : cx.insn.size <;> rw [hsize] at hswapped <;> cases hswapped <;> simp
  simp [value_within hc ho hvalue, write_within hc ho hs htarget]

theorem extract_within (h : extract cx = .ok e) : e.Within π := by
  obtain ⟨m, hm, h⟩ := Build.bind_eq_ok.1 h
  obtain ⟨n, hn, h⟩ := Build.bind_eq_ok.1 h
  exact write_within hc ho (by simp [value_within hc ho hm, value_within hc ho hn]) h

/-! ## Integer arithmetic -/

theorem add_within (h : add cx = .ok e) : e.Within π := by
  obtain ⟨m, hm, h⟩ := Build.bind_eq_ok.1 h
  obtain ⟨n, hn, h⟩ := Build.bind_eq_ok.1 h
  exact write_within hc ho (by simp [value_within hc ho hm, value_within hc ho hn]) h

theorem sub_within (h : sub cx = .ok e) : e.Within π := by
  obtain ⟨n, hn, h⟩ := Build.bind_eq_ok.1 h
  obtain ⟨m, hm, h⟩ := Build.bind_eq_ok.1 h
  exact write_within hc ho (by simp [value_within hc ho hm, value_within hc ho hn]) h

theorem withFlag_within {result : Expr} {rule : Expr → Expr → Expr → Expr} (hresult : result.Within π)
    (hrule : (rule (temp "res") (temp "x") (temp "y")).Within π) (h : withFlag cx result rule = .ok e) :
    e.Within π := by
  obtain ⟨x, hx, h⟩ := Build.bind_eq_ok.1 h
  obtain ⟨y, hy, h⟩ := Build.bind_eq_ok.1 h
  obtain ⟨target, htarget, h⟩ := Build.bind_eq_ok.1 h
  cases h
  simp only [temp] at hrule
  simp [value_within hc ho hx, value_within hc ho hy, write_within hc ho (by simp) htarget, hresult, hrule, hc.t]

theorem addWithCarry_within (h : addWithCarry cx = .ok e) : e.Within π :=
  withFlag_within hc ho (by simp [hc.t]) (by simp [Expr.addCarry]) h

theorem addWithOverflow_within (h : addWithOverflow cx = .ok e) : e.Within π :=
  withFlag_within hc ho (by simp) (by simp [Expr.addOverflow]) h

theorem subWithBorrow_within (h : subWithBorrow cx = .ok e) : e.Within π :=
  withFlag_within hc ho (by simp [hc.t]) (by simp [Expr.subBorrow]) h

theorem subWithUnderflow_within (h : subWithUnderflow cx = .ok e) : e.Within π :=
  withFlag_within hc ho (by simp) (by simp [Expr.subUnderflow]) h

theorem negate_within (h : negate cx = .ok e) : e.Within π := by
  obtain ⟨m, hm, h⟩ := Build.bind_eq_ok.1 h
  exact write_within hc ho (by simpa using value_within hc ho hm) h

theorem negateWithBorrow_within (h : negateWithBorrow cx = .ok e) : e.Within π := by
  obtain ⟨y, hy, h⟩ := Build.bind_eq_ok.1 h
  obtain ⟨target, htarget, h⟩ := Build.bind_eq_ok.1 h
  cases h
  simp [value_within hc ho hy, write_within hc ho (by simp) htarget, Expr.subBorrow, hc.t]

theorem decrementAndTest_within (h : decrementAndTest cx = .ok e) : e.Within π := by
  obtain ⟨n, hn, h⟩ := Build.bind_eq_ok.1 h
  obtain ⟨target, htarget, h⟩ := Build.bind_eq_ok.1 h
  obtain ⟨n', hn', h⟩ := Build.bind_eq_ok.1 h
  cases h
  simp [value_within hc ho hn', write_within hc ho (by simpa using value_within hc ho hn) htarget, hc.t]

theorem extend_within {isSigned : Bool} (h : extend cx isSigned = .ok e) : e.Within π := by
  rw [extend_eq] at h
  obtain ⟨bits, -, h⟩ := Build.bind_eq_ok.1 h
  obtain ⟨v, hv, h⟩ := Build.bind_eq_ok.1 h
  exact write_within hc ho (by simpa using value_within hc ho hv) h

/-! ## Comparisons -/

theorem compareEq_within (h : compareEq cx = .ok e) : e.Within π := by
  obtain ⟨m, hm, h⟩ := Build.bind_eq_ok.1 h
  obtain ⟨n, hn, h⟩ := Build.bind_eq_ok.1 h
  cases h
  simp [value_within hc ho hm, value_within hc ho hn, hc.t]

theorem compare_within {rule : Expr → Expr → Expr} (h : compare cx rule = .ok e)
    (hrule : ∀ x y, x.Within π → y.Within π → (rule x y).Within π) : e.Within π := by
  obtain ⟨n, hn, h⟩ := Build.bind_eq_ok.1 h
  obtain ⟨m, hm, h⟩ := Build.bind_eq_ok.1 h
  cases h
  simp [hrule n m (value_within hc ho hn) (value_within hc ho hm), hc.t]

theorem compareZero_within {rule : Expr → Expr → Expr} (h : compareZero cx rule = .ok e)
    (hrule : ∀ x y, x.Within π → y.Within π → (rule x y).Within π) : e.Within π := by
  obtain ⟨n, hn, h⟩ := Build.bind_eq_ok.1 h
  cases h
  exact ⟨fun _ => hc.t, hrule n (word 0) (value_within hc ho hn) trivial⟩

theorem compareBytes_within (h : compareBytes cx = .ok e) : e.Within π := by
  obtain ⟨m, hm, h⟩ := Build.bind_eq_ok.1 h
  obtain ⟨n, hn, h⟩ := Build.bind_eq_ok.1 h
  cases h
  simp [value_within hc ho hm, value_within hc ho hn, byteIsZero, hc.t]

theorem test_within (h : test cx = .ok e) : e.Within π := by
  obtain ⟨m, hm, h⟩ := Build.bind_eq_ok.1 h
  obtain ⟨n, hn, h⟩ := Build.bind_eq_ok.1 h
  cases h
  simp [value_within hc ho hm, value_within hc ho hn, hc.t]

/-! ## Multiplication and division -/

theorem multiplyDouble_within {isSigned : Bool} (h : multiplyDouble cx isSigned = .ok e) : e.Within π := by
  obtain ⟨m, hm, h⟩ := Build.bind_eq_ok.1 h
  obtain ⟨n, hn, h⟩ := Build.bind_eq_ok.1 h
  cases h
  simp [value_within hc ho hm, value_within hc ho hn, hc.mach, hc.macl]

theorem multiplyLong_within (h : multiplyLong cx = .ok e) : e.Within π := by
  obtain ⟨m, hm, h⟩ := Build.bind_eq_ok.1 h
  obtain ⟨n, hn, h⟩ := Build.bind_eq_ok.1 h
  cases h
  simp [value_within hc ho hm, value_within hc ho hn, hc.macl]

theorem multiplyWord_within {isSigned : Bool} (h : multiplyWord cx isSigned = .ok e) : e.Within π := by
  obtain ⟨m, hm, h⟩ := Build.bind_eq_ok.1 h
  obtain ⟨n, hn, h⟩ := Build.bind_eq_ok.1 h
  cases h
  simp [value_within hc ho hm, value_within hc ho hn, hc.macl]

omit ho in
theorem multiplyAccumulate_within {form : MacForm} {n m : Expr} (hn : n.Within π) (hm : m.Within π) :
    (multiplyAccumulate form n m).Within π := by
  simp [multiplyAccumulate, hn, hm, hc.s, hc.mach, hc.macl]

theorem multiplyAndAdd_within (h : multiplyAndAdd cx = .ok e) : e.Within π := by
  rw [multiplyAndAdd_eq] at h
  obtain ⟨form, -, h⟩ := Build.bind_eq_ok.1 h
  obtain ⟨n, hn, h⟩ := Build.bind_eq_ok.1 h
  obtain ⟨m, hm, h⟩ := Build.bind_eq_ok.1 h
  cases h
  have hn := read_within hc ho hn
  have hm := read_within hc ho hm
  rw [within_sequence]
  intro e he
  simp only [List.mem_append, List.mem_singleton, Option.mem_toList] at he
  rcases he with (((rfl | he) | rfl) | he) | rfl
  · simpa using hn.value
  · exact hn.post e he
  · simpa using hm.value
  · exact hm.post e he
  · exact multiplyAccumulate_within hc (by simp) (by simp)

omit ho in
theorem clearMac_within : clearMac.Within π := by
  simp [clearMac, hc.mach, hc.macl]

omit ho in
theorem divideArm_within {subtract negated : Bool} : (divideArm subtract negated).Within π := by
  cases subtract <;> cases negated <;> simp [divideArm, hc.q]

omit ho in
theorem divideStep_within {remainder divisor : Expr} (hr : remainder.Within π) (hd : divisor.Within π) :
    (divideStep remainder divisor).Within π := by
  simp [divideStep, hr, hd, divideArm_within hc, hc.q, hc.m, hc.t]

theorem divide_within (h : divide cx = .ok e) : e.Within π := by
  obtain ⟨remainder, hr, h⟩ := Build.bind_eq_ok.1 h
  obtain ⟨divisor, hd, h⟩ := Build.bind_eq_ok.1 h
  obtain ⟨target, ht, h⟩ := Build.bind_eq_ok.1 h
  cases h
  simp [divideStep_within hc (value_within hc ho hr) (value_within hc ho hd), write_within hc ho (by simp) ht]

theorem divideSigned_within (h : divideSigned cx = .ok e) : e.Within π := by
  obtain ⟨m, hm, h⟩ := Build.bind_eq_ok.1 h
  obtain ⟨n, hn, h⟩ := Build.bind_eq_ok.1 h
  cases h
  simp [value_within hc ho hm, value_within hc ho hn, hc.m, hc.q, hc.t]

omit ho in
theorem divideUnsigned_within : divideUnsigned.Within π := by
  simp [divideUnsigned, hc.m, hc.q, hc.t]

/-! ## Logic and shifts -/

theorem bitwise_within {combine : Expr → Expr → Expr} (h : bitwise cx combine = .ok e)
    (hcombine : ∀ x y, x.Within π → y.Within π → (combine x y).Within π) : e.Within π := by
  obtain ⟨m, hm, h⟩ := Build.bind_eq_ok.1 h
  obtain ⟨n, hn, h⟩ := Build.bind_eq_ok.1 h
  exact write_within hc ho (hcombine m n (value_within hc ho hm) (value_within hc ho hn)) h

theorem bitNot_within (h : bitNot cx = .ok e) : e.Within π := by
  obtain ⟨m, hm, h⟩ := Build.bind_eq_ok.1 h
  exact write_within hc ho (by simpa using value_within hc ho hm) h

theorem testAndSet_within (h : testAndSet cx = .ok e) : e.Within π := by
  obtain ⟨byte, hbyte, h⟩ := Build.bind_eq_ok.1 h
  obtain ⟨target, htarget, h⟩ := Build.bind_eq_ok.1 h
  cases h
  simp [value_within hc ho hbyte, write_within hc ho (by simp) htarget, hc.t]

theorem rotateLeft_within (h : rotateLeft cx = .ok e) : e.Within π := by
  obtain ⟨v, hv, h⟩ := Build.bind_eq_ok.1 h
  obtain ⟨target, htarget, h⟩ := Build.bind_eq_ok.1 h
  cases h
  simp [value_within hc ho hv, write_within hc ho (by simp [rotatedUp]) htarget, hc.t]

theorem rotateRight_within (h : rotateRight cx = .ok e) : e.Within π := by
  obtain ⟨v, hv, h⟩ := Build.bind_eq_ok.1 h
  obtain ⟨target, htarget, h⟩ := Build.bind_eq_ok.1 h
  cases h
  simp [value_within hc ho hv, write_within hc ho (by simp [rotatedDown]) htarget, hc.t]

theorem rotateLeftThrough_within (h : rotateLeftThrough cx = .ok e) : e.Within π := by
  obtain ⟨v, hv, h⟩ := Build.bind_eq_ok.1 h
  obtain ⟨target, htarget, h⟩ := Build.bind_eq_ok.1 h
  cases h
  simp [value_within hc ho hv, write_within hc ho (by simp [rotatedUp, hc.t]) htarget, hc.t]

theorem rotateRightThrough_within (h : rotateRightThrough cx = .ok e) : e.Within π := by
  obtain ⟨v, hv, h⟩ := Build.bind_eq_ok.1 h
  obtain ⟨target, htarget, h⟩ := Build.bind_eq_ok.1 h
  cases h
  simp [value_within hc ho hv, write_within hc ho (by simp [rotatedDown, hc.t]) htarget, hc.t]

theorem shiftLeft_within (h : shiftLeft cx = .ok e) : e.Within π := by
  obtain ⟨v, hv, h⟩ := Build.bind_eq_ok.1 h
  obtain ⟨target, htarget, h⟩ := Build.bind_eq_ok.1 h
  cases h
  have hv := value_within hc ho hv
  simp [hv, write_within hc ho (by simp [hv]) htarget, hc.t]

theorem shiftRight_within {arithmetic : Bool} (h : shiftRight cx arithmetic = .ok e) : e.Within π := by
  obtain ⟨v, hv, h⟩ := Build.bind_eq_ok.1 h
  obtain ⟨target, htarget, h⟩ := Build.bind_eq_ok.1 h
  cases h
  have hv := value_within hc ho hv
  simp [hv, write_within hc ho (by cases arithmetic <;> simp [hv]) htarget, hc.t]

theorem shiftBy_within {left : Bool} {places : Nat} (h : shiftBy cx left places = .ok e) : e.Within π := by
  obtain ⟨v, hv, h⟩ := Build.bind_eq_ok.1 h
  exact write_within hc ho (by cases left <;> simp [value_within hc ho hv]) h

theorem shiftDynamic_within {arithmetic : Bool} (h : shiftDynamic cx arithmetic = .ok e) : e.Within π := by
  obtain ⟨amount, hamount, h⟩ := Build.bind_eq_ok.1 h
  obtain ⟨v, hv, h⟩ := Build.bind_eq_ok.1 h
  obtain ⟨left, hleft, h⟩ := Build.bind_eq_ok.1 h
  obtain ⟨right, hright, h⟩ := Build.bind_eq_ok.1 h
  cases h
  have hl : left.Within π := write_within hc ho (by simp) hleft
  have hr : right.Within π := write_within hc ho (by cases arithmetic <;> simp) hright
  simp [value_within hc ho hamount, value_within hc ho hv, hl, hr]

/-! ## Branches -/

theorem branchIf_within {condition : Bool} (h : branchIf cx condition = .ok e) : e.Within π := by
  obtain ⟨a, ha, h⟩ := Build.bind_eq_ok.1 h
  cases h
  cases condition <;> simp [address_within hc ho ha, hc.t]

theorem jump_within (h : jump cx = .ok e) : e.Within π := by
  obtain ⟨a, ha, h⟩ := Build.bind_eq_ok.1 h
  cases h
  exact address_within hc ho ha

theorem call_within (h : call cx = .ok e) : e.Within π := by
  obtain ⟨a, ha, h⟩ := Build.bind_eq_ok.1 h
  cases h
  simp [address_within hc ho ha, hc.pr]

/-! ## Instructions -/

/-- The effect of an instruction whose operands are granted keeps to the policy. RTE is left to the policy: it sets
the whole status register. -/
theorem effect_within (hrte : cx.insn.mnemonic = .rte → returnFromException.Within π) (h : effect cx = .ok e) :
    e.Within π := by
  have pair : ∀ x y : Expr, x.Within π → y.Within π → x.Within π ∧ y.Within π := fun _ _ hx hy => ⟨hx, hy⟩
  cases hm : cx.insn.mnemonic <;> rw [effect, hm] at h
  case invalid => cases h
  case mov | movca | ldc | lds | stc | sts => exact move_within hc ho h
  case movt => exact moveCondition_within hc ho h
  case swap => exact swap_within hc ho h
  case xtrct => exact extract_within hc ho h
  case add => exact add_within hc ho h
  case addc => exact addWithCarry_within hc ho h
  case addv => exact addWithOverflow_within hc ho h
  case sub => exact sub_within hc ho h
  case subc => exact subWithBorrow_within hc ho h
  case subv => exact subWithUnderflow_within hc ho h
  case neg => exact negate_within hc ho h
  case negc => exact negateWithBorrow_within hc ho h
  case dt => exact decrementAndTest_within hc ho h
  case exts | extu => exact extend_within hc ho h
  case cmpEq => exact compareEq_within hc ho h
  case cmpHs | cmpGe | cmpHi | cmpGt => exact compare_within hc ho h pair
  case cmpPz | cmpPl => exact compareZero_within hc ho h pair
  case cmpStr => exact compareBytes_within hc ho h
  case tst => exact test_within hc ho h
  case div1 => exact divide_within hc ho h
  case div0s => exact divideSigned_within hc ho h
  case div0u => cases h; exact divideUnsigned_within hc
  case dmuls | dmulu => exact multiplyDouble_within hc ho h
  case mul => exact multiplyLong_within hc ho h
  case muls | mulu => exact multiplyWord_within hc ho h
  case mac => exact multiplyAndAdd_within hc ho h
  case clrmac => cases h; exact clearMac_within hc
  case and | or | xor => exact bitwise_within hc ho h pair
  case not => exact bitNot_within hc ho h
  case tas => exact testAndSet_within hc ho h
  case rotl => exact rotateLeft_within hc ho h
  case rotr => exact rotateRight_within hc ho h
  case rotcl => exact rotateLeftThrough_within hc ho h
  case rotcr => exact rotateRightThrough_within hc ho h
  case shad | shld => exact shiftDynamic_within hc ho h
  case shal | shll => exact shiftLeft_within hc ho h
  case shar | shlr => exact shiftRight_within hc ho h
  case shll2 | shlr2 | shll8 | shlr8 | shll16 | shlr16 => exact shiftBy_within hc ho h
  case bf | bfs | bt | bts => exact branchIf_within hc ho h
  case bra | braf | jmp => exact jump_within hc ho h
  case bsr | bsrf | jsr => exact call_within hc ho h
  case rts => cases h; simp [returnFromCall, hc.pr]
  case rte => cases h; exact hrte hm
  case clrs | sets => cases h; simp [hc.s]
  case clrt | sett => cases h; simp [hc.t]
  case nop | sleep | unimpl => cases h; simp

omit hc ho in
/-- No instruction raises an exception from within its effect. -/
theorem effect_quiet (h : effect cx = .ok e) : e.Within .quiet := by
  have hgrants (n : Nat) : Policy.quiet.Grants n := by
    intro s _
    cases s
    · exact ⟨.inr ⟨trivial, trivial, trivial⟩, trivial⟩
    · exact fun _ => trivial
    · exact ⟨trivial, trivial, trivial⟩
    · exact trivial
  have hc : Policy.quiet.Common :=
    ⟨trivial, trivial, trivial, trivial, trivial, trivial, trivial, hgrants _, hgrants _⟩
  refine effect_within hc (fun o _ n _ => hgrants n) (fun _ => ?_) h
  rw [returnFromException, within_sequence, List.forall_mem_cons, List.forall_mem_singleton]
  exact ⟨setStatus_within (fun _ => trivial) fun _ => trivial, fun _ => trivial⟩

end Lift
end SuperH
