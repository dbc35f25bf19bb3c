import SuperH.Proofs.Lift.Stores
import SuperH.Proofs.Vm.Straight

/-!
# Instructions that do not jump

* `Mnemonic.branches` : the branches, calls and returns;
* `write_straight` : writing an operand does not jump;
* `effect_straight`, `lift_straight` : nor does any other instruction.
-/

namespace SuperH

/-- The branches, the calls and the returns. -/
def Mnemonic.branches : Mnemonic → Bool
  | .bf | .bfs | .bt | .bts | .bra | .braf | .jmp | .bsr | .bsrf | .jsr | .rts | .rte => true
  | _ => false

open Build (Yields)

namespace Cpu

open SuperH.Expr SuperH.Effect

/-! ## Registers and operands -/

theorem setStatus_straight (value : Expr) : (setStatus value).Straight := by
  simp [setStatus, Flag.all]

theorem Storage.write_straight (s : Storage) (value : Expr) : (s.write value).Straight := by
  rcases s with _ | _ | _ | _
  · simp [write]
  · exact setStatus_straight value
  · simp [write]
  · simp [write]

theorem setReg_straight (n : Nat) (value : Expr) : Yields Straight (setReg n value) := by
  intro e he
  obtain ⟨s, -, rfl⟩ := setReg_eq_ok.1 he
  exact s.write_straight value

/-- What a read does beside its value. -/
structure OperandRead.Straight (r : OperandRead) : Prop where
  pre : ∀ e ∈ r.pre, e.Straight
  post : ∀ e ∈ r.post, e.Straight

variable {o : Operand} {size : AccessSize} {pc : Nat} {value : Expr}

theorem read_straight : Yields OperandRead.Straight (read o size pc) := by
  cases o with
  | postInc n =>
    refine .bind fun bytes => .bind fun bits => .bind fun a => .bind fun e => ?_
    refine .bind_of (setReg_straight n _) fun post hpost => .pure ⟨nofun, ?_⟩
    rintro _ ⟨⟩
    exact hpost
  | preDec n =>
    refine .bind fun bytes => .bind fun e => .bind_of (setReg_straight n _) fun pre hpre => ?_
    refine .bind fun bits => .bind fun a => .pure ⟨?_, nofun⟩
    rintro _ ⟨⟩
    exact hpre
  | immU v | immS v => exact .pure ⟨nofun, nofun⟩
  | reg n => exact .bind fun e => .pure ⟨nofun, nofun⟩
  | indirect | displaced | indexed | gbrDisp | gbrIndexed | pcDisp | pcRel8 | pcRel12 | pcReg =>
    exact .bind fun bits => .bind fun a => .pure ⟨nofun, nofun⟩

theorem around_straight {pre post : Option Effect} {target : Effect} (hpre : ∀ e ∈ pre, e.Straight)
    (ht : target.Straight) (hpost : ∀ e ∈ post, e.Straight) : (around pre target post).Straight := by
  unfold around
  split
  · exact ht
  · simp only [straight_sequence, List.forall_mem_append, List.forall_mem_singleton, Option.mem_toList]
    exact ⟨⟨hpre, ht⟩, hpost⟩

theorem write_straight : Yields Straight (write o value size pc) := by
  cases o with
  | reg n => rcases size with _ | _ | _ | _ <;> exact setReg_straight n _
  | immU v | immS v => exact .throw
  | indirect | postInc | preDec | displaced | indexed | gbrDisp | gbrIndexed | pcDisp | pcRel8 | pcRel12 | pcReg =>
    exact .bind_of read_straight fun r hr => .bind fun a => .pure (around_straight hr.pre trivial hr.post)

end Cpu

namespace Lift

open SuperH.Expr SuperH.Effect SuperH.Cpu

variable {cx : Context} {index : Nat} {size : AccessSize} {value : Expr}

theorem read_straight : Yields OperandRead.Straight (cx.read index size) := .bind fun _ => Cpu.read_straight

theorem write_straight : Yields Straight (cx.write index value size) := .bind fun _ => Cpu.write_straight

theorem bind_write_straight {f : Effect → Build Effect} (hf : ∀ target, target.Straight → Yields Straight (f target)) :
    Yields Straight (cx.write index value size >>= f) := .bind_of write_straight hf

/-! ## Instructions -/

theorem move_straight : Yields Straight (move cx) := by
  refine .bind_of read_straight fun source hs => bind_write_straight fun target ht => .bind fun o => .bind fun o' => ?_
  refine .pure (around_straight hs.pre ht fun e he => hs.post e ?_)
  unfold postOfMove at he
  split at he
  · split at he
    · cases he
    · exact he
  · exact he

theorem swap_straight : Yields Straight (swap cx) := by
  rw [swap_eq]
  exact .bind fun swapped => .bind fun value => bind_write_straight fun target ht => .pure (by simp [ht])

theorem extend_straight {isSigned : Bool} : Yields Straight (extend cx isSigned) := by
  rw [extend_eq]
  exact .bind fun bits => .bind fun v => write_straight

theorem divideStep_straight {remainder divisor : Expr} : (divideStep remainder divisor).Straight := by
  simp [divideStep, divideArm]

theorem divide_straight : Yields Straight (divide cx) :=
  .bind fun remainder => .bind fun divisor => bind_write_straight fun target ht => .pure (by simp [divideStep_straight, ht])

theorem multiplyAndAdd_straight : Yields Straight (multiplyAndAdd cx) := by
  rw [multiplyAndAdd_eq]
  refine .bind fun form => .bind_of read_straight fun n hn => .bind_of read_straight fun m hm => .pure ?_
  have hmac (n m : Expr) : (multiplyAccumulate form n m).Straight := by simp [multiplyAccumulate]
  simp only [straight_sequence, List.forall_mem_append, List.forall_mem_singleton, Option.mem_toList]
  exact ⟨⟨⟨⟨trivial, hn.post⟩, trivial⟩, hm.post⟩, hmac ..⟩

theorem effect_straight (hm : cx.insn.mnemonic.branches = false) : Yields Straight (effect cx) := by
  cases hcase : cx.insn.mnemonic <;> rw [hcase] at hm <;> rw [effect, hcase]
  case bf | bfs | bt | bts | bra | braf | jmp | bsr | bsrf | jsr | rts | rte => cases hm
  case invalid => exact .throw
  case mov | movca | ldc | lds | stc | sts => exact move_straight
  case swap => exact swap_straight
  case exts | extu => exact extend_straight
  case div1 => exact divide_straight
  case mac => exact multiplyAndAdd_straight
  -- the value of some operands, written to one
  case movt => exact write_straight
  case neg | not | shll2 | shlr2 | shll8 | shlr8 | shll16 | shlr16 => exact .bind fun _ => write_straight
  case add | sub | xtrct | and | or | xor => exact .bind fun _ => .bind fun _ => write_straight
  -- operands written between changes of variables
  case addc | subc | addv | subv =>
    exact .bind fun _ => .bind fun _ => bind_write_straight fun _ ht => .pure (by simp [ht])
  case dt => exact .bind fun _ => bind_write_straight fun _ ht => .bind fun _ => .pure (by simp [ht])
  case shad | shld =>
    exact .bind fun _ => .bind fun _ => bind_write_straight fun _ hl => bind_write_straight fun _ hr => .pure (by simp [hl, hr])
  case negc | tas | rotl | rotr | rotcl | rotcr | shal | shll | shar | shlr =>
    exact .bind fun _ => bind_write_straight fun _ ht => .pure (by simp [ht])
  -- variables alone
  case cmpEq | cmpHs | cmpGe | cmpHi | cmpGt | tst | cmpStr | div0s | dmuls | dmulu | mul | muls | mulu =>
    exact .bind fun _ => .bind fun _ => .pure (by simp)
  case cmpPz | cmpPl => exact .bind fun _ => .pure (by simp)
  case div0u | clrmac | clrs | sets | clrt | sett | nop | sleep | unimpl =>
    exact .pure (by simp [divideUnsigned, clearMac])

end Lift

/-- What lifting yields does not jump, unless it lifts a branch. -/
theorem lift_straight {insn : Insn} {pc : Nat} {privileged : Bool} {lifted : Lifted}
    (hm : insn.mnemonic.branches = false) (h : lift insn pc privileged = .ok lifted) : lifted.Straight := by
  unfold lift at h
  dsimp only at h
  split at h
  · cases h
    trivial
  · obtain ⟨e, he, h⟩ := Build.map_eq_ok.1 h
    cases h
    exact Lift.effect_straight hm e he

end SuperH
