import SuperH.Proofs.Cpu.Policy
import SuperH.Proofs.Lift.Form
import SuperH.Proofs.Vm.Stores

/-!
# Stores of instructions

* `Build.Yields` : whatever a construction yields has a property;
* `write_storesOnce` : writing an operand stores at most once, and loads nothing after that;
* `effect_storesOnce` : so does every instruction but DT, which reads its operand again after writing it;
* `lift_storesOnce` : what lifting yields.
-/

namespace SuperH

variable {α β : Type} {loads : Bool}

/-- Whatever the construction yields has the property. -/
def Build.Yields (P : α → Prop) (x : Build α) : Prop := ∀ a, x = .ok a → P a

namespace Build.Yields

variable {P : β → Prop} {Q : α → Prop} {x : Build α} {f : α → Build β}

theorem pure {b : β} (h : P b) : Yields P (Pure.pure b) := by
  rintro _ ⟨⟩
  exact h

theorem throw {e : LiftError} : Yields P (MonadExcept.throw e) := nofun

theorem bind_of (hx : Yields Q x) (hf : ∀ a, Q a → Yields P (f a)) : Yields P (x >>= f) := by
  intro b hb
  obtain ⟨a, ha, hb⟩ := Build.bind_eq_ok.1 hb
  exact hf a (hx a ha) b hb

theorem bind (hf : ∀ a, Yields P (f a)) : Yields P (x >>= f) := bind_of (Q := fun _ => True) (fun _ _ => trivial) fun a _ => hf a

end Build.Yields

open Build (Yields)

namespace Cpu

open SuperH.Expr SuperH.Effect

/-! ## Registers and operands -/

theorem statusExpr_loadsOnlyIf : statusExpr.LoadsOnlyIf loads := by
  simp [statusExpr, Flag.all]

theorem setStatus_setsOnly {value : Expr} (hv : value.LoadsOnlyIf loads) : (setStatus value).SetsOnly loads := by
  simp [setStatus, Flag.all, hv]

theorem Storage.read_loadsOnlyIf (s : Storage) : s.read.LoadsOnlyIf loads := by
  rcases s with _ | _ | _ | _
  · simp [read, bank1Selected]
  · exact statusExpr_loadsOnlyIf
  · simp [read]
  · simp [read]

theorem Storage.write_setsOnly {s : Storage} {value : Expr} (hv : value.LoadsOnlyIf loads) :
    (s.write value).SetsOnly loads := by
  rcases s with _ | _ | _ | _
  · simp [write, bank1Selected, hv]
  · exact setStatus_setsOnly hv
  · simp [write, hv]
  · simp [write, hv]

theorem getReg_loadsOnlyIf (loads : Bool) (n : Nat) : Yields (Expr.LoadsOnlyIf loads) (getReg n) := by
  intro e he
  obtain ⟨s, -, rfl⟩ := getReg_eq_ok.1 he
  exact s.read_loadsOnlyIf

theorem setReg_setsOnly (n : Nat) {value : Expr} (hv : value.LoadsOnlyIf loads) :
    Yields (SetsOnly loads) (setReg n value) := by
  intro e he
  obtain ⟨s, -, rfl⟩ := setReg_eq_ok.1 he
  exact s.write_setsOnly hv

/-- What a read does beside its value. -/
def OperandRead.SetsOnly (loads : Bool) (r : OperandRead) : Prop :=
  (∀ e ∈ r.pre, e.SetsOnly loads) ∧ ∀ e ∈ r.post, e.SetsOnly loads

variable {o : Operand} {size : AccessSize} {pc : Nat}

theorem next_loadsOnlyIf {op : ArithOp} {e : Expr} {bytes : Nat} (he : e.LoadsOnlyIf loads) :
    (Expr.arith op e (word bytes)).LoadsOnlyIf loads := ⟨he, trivial⟩

theorem read_setsOnly : Yields (OperandRead.SetsOnly loads) (read o size pc) := by
  cases o with
  | postInc n =>
    refine .bind fun bytes => .bind fun bits => .bind fun a => .bind_of (getReg_loadsOnlyIf loads n) fun e he => ?_
    refine .bind_of (setReg_setsOnly n (next_loadsOnlyIf he)) fun post hpost => .pure ⟨nofun, ?_⟩
    rintro _ ⟨⟩
    exact hpost
  | preDec n =>
    refine .bind fun bytes => .bind_of (getReg_loadsOnlyIf loads n) fun e he => ?_
    refine .bind_of (setReg_setsOnly n (next_loadsOnlyIf he)) fun pre hpre => ?_
    refine .bind fun bits => .bind fun a => .pure ⟨?_, nofun⟩
    rintro _ ⟨⟩
    exact hpre
  | immU v | immS v => exact .pure ⟨nofun, nofun⟩
  | reg n => exact .bind fun e => .pure ⟨nofun, nofun⟩
  | indirect | displaced | indexed | gbrDisp | gbrIndexed | pcDisp | pcRel8 | pcRel12 | pcReg =>
    exact .bind fun bits => .bind fun a => .pure ⟨nofun, nofun⟩

/-- A target that is written between other changes. -/
theorem target_storesOnce {before after : List Effect} {target : Effect} (hbefore : AllSetOnly true before)
    (ht : target.StoresOnce loads) (hafter : AllSetOnly loads after) :
    (sequence (before ++ target :: after)).StoresOnce loads := by
  rw [storesOnce_sequence, allStoreOnce_append]
  exact .inl ⟨hbefore, .inr ⟨ht, hafter⟩⟩

theorem around_storesOnce {pre post : Option Effect} {target : Effect} (hpre : ∀ e ∈ pre, e.SetsOnly loads)
    (ht : target.StoresOnce loads) (hpost : ∀ e ∈ post, e.SetsOnly loads) :
    (around pre target post).StoresOnce loads := by
  have hlist (o : Option Effect) (h : ∀ e ∈ o, e.SetsOnly loads) : AllSetOnly loads o.toList :=
    allSetOnly_iff.2 fun e he => h e (Option.mem_toList.1 he)
  unfold around
  split
  · exact ht
  · rw [List.append_assoc]
    exact target_storesOnce (allSetOnly_widen (hlist pre hpre)) ht (hlist post hpost)

/-- A write stores at most once, and loads nothing after that. -/
theorem write_storesOnce {value : Expr} : Yields (StoresOnce loads) (write o value size pc) := by
  have hreg (n : Nat) (value : Expr) : Yields (StoresOnce loads) (setReg n value) := fun e he =>
    (setReg_setsOnly n (loadsOnlyIf_true value) e he).storesOnce
  cases o with
  | reg n => rcases size with _ | _ | _ | _ <;> exact hreg n _
  | immU v | immS v => exact .throw
  | indirect | postInc | preDec | displaced | indexed | gbrDisp | gbrIndexed | pcDisp | pcRel8 | pcRel12 | pcReg =>
    exact .bind_of read_setsOnly fun r hr => .bind fun a => .pure (around_storesOnce hr.1 trivial hr.2)

end Cpu

namespace Lift

open SuperH.Expr SuperH.Effect SuperH.Cpu

variable {cx : Context} {index : Nat} {size : AccessSize}

theorem read_setsOnly : Yields (OperandRead.SetsOnly loads) (cx.read index size) := .bind fun _ => Cpu.read_setsOnly

theorem write_storesOnce {value : Expr} : Yields (StoresOnce loads) (cx.write index value size) :=
  .bind fun _ => Cpu.write_storesOnce

theorem bind_write {value : Expr} {f : Effect → Build Effect}
    (hf : ∀ target, target.StoresOnce loads → Yields (StoresOnce loads) (f target)) :
    Yields (StoresOnce loads) (cx.write index value size >>= f) := .bind_of write_storesOnce hf

theorem bind_read {f : OperandRead → Build Effect}
    (hf : ∀ r, OperandRead.SetsOnly loads r → Yields (StoresOnce loads) (f r)) :
    Yields (StoresOnce loads) (cx.read index size >>= f) := .bind_of read_setsOnly hf

/-! ## Instructions -/

theorem move_storesOnce : Yields (StoresOnce loads) (move cx) := by
  refine bind_read fun source hs => bind_write fun target ht => .bind fun o => .bind fun o' => ?_
  refine .pure (around_storesOnce hs.1 ht fun e he => hs.2 e ?_)
  unfold postOfMove at he
  split at he
  · split at he
    · cases he
    · exact he
  · exact he

theorem swap_storesOnce : Yields (StoresOnce loads) (swap cx) := by
  rw [swap_eq]
  refine .bind fun swapped => .bind fun value => bind_write fun target ht => .pure ?_
  simp [loadsOnlyIf_true, ht]

theorem extend_storesOnce {isSigned : Bool} : Yields (StoresOnce loads) (extend cx isSigned) := by
  rw [extend_eq]
  exact .bind fun bits => .bind fun v => write_storesOnce

theorem withFlag_storesOnce {result : Expr} {rule : Expr → Expr → Expr → Expr}
    (hrule : (rule (temp "res") (temp "x") (temp "y")).LoadsOnlyIf loads) :
    Yields (StoresOnce loads) (withFlag cx result rule) := by
  refine .bind fun x => .bind fun y => bind_write fun target ht => .pure ?_
  simp only [temp] at hrule
  simp [loadsOnlyIf_true, ht, hrule]

/-- DT reads its operand once more after it has written it. -/
theorem decrementAndTest_storesOnce : Yields (StoresOnce true) (decrementAndTest cx) := by
  refine .bind fun n => bind_write fun target ht => .bind fun n' => .pure ?_
  simp [loadsOnlyIf_true, ht]

theorem shiftDynamic_storesOnce {arithmetic : Bool} : Yields (StoresOnce loads) (shiftDynamic cx arithmetic) := by
  refine .bind fun amount => .bind fun v => bind_write fun left hl => bind_write fun right hr => .pure ?_
  simp [loadsOnlyIf_true, hl, hr]

theorem divide_storesOnce : Yields (StoresOnce loads) (divide cx) := by
  refine .bind fun remainder => .bind fun divisor => bind_write fun target ht => .pure ?_
  have hstep : (divideStep remainder divisor).SetsOnly true := by
    simp [divideStep, divideArm, loadsOnlyIf_true]
  simp [hstep, ht]

theorem multiplyAndAdd_storesOnce : Yields (StoresOnce loads) (multiplyAndAdd cx) := by
  rw [multiplyAndAdd_eq]
  refine .bind fun form => bind_read fun n hn => bind_read fun m hm => .pure (SetsOnly.storesOnce ?_)
  have hpost (r : OperandRead) (hr : r.SetsOnly loads) : AllSetOnly true r.post.toList :=
    allSetOnly_iff.2 fun e he => (hr.2 e (Option.mem_toList.1 he)).widen
  have hmac (n m : Expr) : (multiplyAccumulate form n m).SetsOnly true := by
    simp [multiplyAccumulate, loadsOnlyIf_true]
  simp [allSetOnly_append, loadsOnlyIf_true, hpost n hn, hpost m hm, hmac]

theorem returnFromException_storesOnce : returnFromException.StoresOnce loads := by
  apply SetsOnly.storesOnce
  rw [returnFromException, setsOnly_sequence]
  exact ⟨setStatus_setsOnly trivial, trivial, trivial⟩

/-- An instruction stores at most once. Only DT loads after that. -/
theorem effect_storesOnce : Yields (StoresOnce (cx.insn.mnemonic == .dt)) (effect cx) := by
  cases hm : cx.insn.mnemonic <;> rw [effect, hm]
  case invalid => exact .throw
  case mov | movca | ldc | lds | stc | sts => exact move_storesOnce
  case swap => exact swap_storesOnce
  case exts | extu => exact extend_storesOnce
  case dt => exact decrementAndTest_storesOnce
  case shad | shld => exact shiftDynamic_storesOnce
  case div1 => exact divide_storesOnce
  case mac => exact multiplyAndAdd_storesOnce
  case rte => exact .pure returnFromException_storesOnce
  -- the value of some operands, written to one
  case movt => exact write_storesOnce
  case neg | not | shll2 | shlr2 | shll8 | shlr8 | shll16 | shlr16 => exact .bind fun _ => write_storesOnce
  case add | sub | xtrct | and | or | xor => exact .bind fun _ => .bind fun _ => write_storesOnce
  -- an operand written between changes of variables
  case addc | subc => exact withFlag_storesOnce (by simp [Expr.addCarry, Expr.subBorrow])
  case addv | subv => exact withFlag_storesOnce (by simp [Expr.addOverflow, Expr.subUnderflow])
  case negc | tas | rotl | rotr | rotcl | rotcr | shal | shll | shar | shlr =>
    exact .bind fun _ => bind_write fun _ ht => .pure (by simp [loadsOnlyIf_true, ht, Expr.subBorrow])
  -- variables alone
  case cmpEq | cmpHs | cmpGe | cmpHi | cmpGt | tst | cmpStr | div0s | dmuls | dmulu | mul | muls | mulu =>
    exact .bind fun _ => .bind fun _ => .pure (SetsOnly.storesOnce (by simp [loadsOnlyIf_true]))
  case cmpPz | cmpPl | bf | bfs | bt | bts | bra | braf | jmp | bsr | bsrf | jsr =>
    exact .bind fun _ => .pure (SetsOnly.storesOnce (by simp [loadsOnlyIf_true]))
  case div0u | clrmac | rts | clrs | sets | clrt | sett | nop | sleep | unimpl =>
    exact .pure (SetsOnly.storesOnce (by simp [divideUnsigned, clearMac, returnFromCall]))

end Lift

/-- What lifting yields stores at most once. Only DT loads after that. -/
theorem lift_storesOnce {insn : Insn} {pc : Nat} {privileged : Bool} {lifted : Lifted}
    (h : lift insn pc privileged = .ok lifted) (e : Effect) (he : lifted = .effect e) :
    e.StoresOnce (insn.mnemonic == .dt) := by
  subst he
  unfold lift at h
  dsimp only at h
  split at h
  · cases h
  · obtain ⟨e', he', h⟩ := Build.map_eq_ok.1 h
    cases h
    exact Lift.effect_storesOnce e he'

end SuperH
