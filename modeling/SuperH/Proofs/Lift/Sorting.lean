import SuperH.Proofs.Cpu.Sorting
import SuperH.Proofs.Lift.Form

/-!
# Sorts of instructions

* `Mnemonic.WordOnly` : the instructions whose trees fit together at the width of a register only;
* `effect_sorted` : the effect of an instruction is well sorted, at any size of access unless it works on words only.
-/

namespace SuperH

/-- Instructions that combine their operands with a word. -/
def Mnemonic.WordOnly : Mnemonic → Prop
  | .addc | .subc | .negc | .cmpPz | .cmpPl | .cmpStr | .div1 | .dt | .mul | .rotcl | .rotcr | .shad | .shld => True
  | _ => False

/-- The width of the instruction's operands. -/
def Context.width (cx : Context) : Nat := cx.insn.size.operandBits

namespace Lift

open SuperH.Expr SuperH.Effect SuperH.Cpu

variable {cx : Context} {assigned : List String}

/-! ## Operands by position -/

theorem read_sorted (width : Nat) {index : Nat} {size : AccessSize} {r : OperandRead} (h : cx.read index size = .ok r) :
    r.Sorted width size.operandBits := by
  obtain ⟨o, -, h⟩ := Build.bind_eq_ok.1 h
  exact Cpu.read_sorted width h

theorem value_sort {index width : Nat} {size : AccessSize} {e : Expr} (h : cx.value index size = .ok e) :
    e.sort? (sorting width) assigned = some (.bits size.operandBits) := by
  obtain ⟨r, hr, h⟩ := Build.bind_eq_ok.1 h
  cases h
  exact (read_sorted _ hr).value assigned

theorem write_sorted {index width bits : Nat} {size : AccessSize} {value : Expr} {e : Effect}
    (h : cx.write index value size = .ok e) (hbits : bits = size.operandBits ∨ bits = 32)
    (hv : value.sort? (sorting width) assigned = some (.bits bits)) : e.Sorted (sorting width) assigned := by
  obtain ⟨o, -, h⟩ := Build.bind_eq_ok.1 h
  exact Cpu.write_sorted h hbits hv

theorem address_sort {index width : Nat} {e : Expr} (h : cx.address index = .ok e) :
    e.sort? (sorting width) assigned = some (.bits 32) := by
  obtain ⟨o, -, h⟩ := Build.bind_eq_ok.1 h
  exact Cpu.address_sort h

/-! ## Moves -/

variable {e : Effect}

theorem move_sorted (h : move cx = .ok e) : e.Sorted (sorting cx.width) assigned := by
  obtain ⟨source, hsource, h⟩ := Build.bind_eq_ok.1 h
  obtain ⟨target, htarget, h⟩ := Build.bind_eq_ok.1 h
  obtain ⟨o, -, h⟩ := Build.bind_eq_ok.1 h
  obtain ⟨o', -, h⟩ := Build.bind_eq_ok.1 h
  cases h
  have hs := read_sorted cx.width hsource
  refine around_sorted hs.pre (fun _ => write_sorted htarget (.inl rfl) (hs.value _)) fun assigned e he => ?_
  refine hs.post assigned e ?_
  unfold postOfMove at he
  split at he
  · split at he
    · cases he
    · exact he
  · exact he

theorem moveCondition_sorted (h : moveCondition cx = .ok e) : e.Sorted (sorting cx.width) assigned :=
  write_sorted h (.inr rfl) (by simp [Expr.sort?])

theorem swap_sorted (h : swap cx = .ok e) : e.Sorted (sorting cx.width) assigned := by
  rw [swap_eq] at h
  obtain ⟨swapped, hswapped, h⟩ := Build.bind_eq_ok.1 h
  obtain ⟨value, hvalue, h⟩ := Build.bind_eq_ok.1 h
  obtain ⟨target, htarget, h⟩ := Build.bind_eq_ok.1 h
  cases h
  rw [sorted_sequence]
  refine ⟨⟨_, value_sort hvalue, rfl⟩, write_sorted htarget (.inl rfl) ?_, trivial⟩
  cases hsize : cx.insn.size <;> rw [hsize] at hswapped <;> cases hswapped <;>
    simp [Expr.sort?, tempSort, Effect.assigned, AccessSize.operandBits]

theorem extract_sorted (h : extract cx = .ok e) : e.Sorted (sorting cx.width) assigned := by
  obtain ⟨m, hm, h⟩ := Build.bind_eq_ok.1 h
  obtain ⟨n, hn, h⟩ := Build.bind_eq_ok.1 h
  exact write_sorted h (.inl rfl) (by simp [Expr.sort?, value_sort hm, value_sort hn])

/-! ## Integer arithmetic -/

theorem add_sorted (h : add cx = .ok e) : e.Sorted (sorting cx.width) assigned := by
  obtain ⟨m, hm, h⟩ := Build.bind_eq_ok.1 h
  obtain ⟨n, hn, h⟩ := Build.bind_eq_ok.1 h
  exact write_sorted h (.inl rfl) (by simp [Expr.sort?, value_sort hm, value_sort hn])

theorem sub_sorted (h : sub cx = .ok e) : e.Sorted (sorting cx.width) assigned := by
  obtain ⟨n, hn, h⟩ := Build.bind_eq_ok.1 h
  obtain ⟨m, hm, h⟩ := Build.bind_eq_ok.1 h
  exact write_sorted h (.inl rfl) (by simp [Expr.sort?, value_sort hm, value_sort hn])

theorem withFlag_sorted {result : Expr} {rule : Expr → Expr → Expr → Expr} (h : withFlag cx result rule = .ok e)
    (hresult : ∀ assigned, "x" ∈ assigned → "y" ∈ assigned →
      result.sort? (sorting cx.width) assigned = some (.bits cx.width))
    (hrule : ∀ assigned, "x" ∈ assigned → "y" ∈ assigned → "res" ∈ assigned →
      (rule (temp "res") (temp "x") (temp "y")).sort? (sorting cx.width) assigned = some .bool) :
    e.Sorted (sorting cx.width) assigned := by
  obtain ⟨x, hx, h⟩ := Build.bind_eq_ok.1 h
  obtain ⟨y, hy, h⟩ := Build.bind_eq_ok.1 h
  obtain ⟨target, htarget, h⟩ := Build.bind_eq_ok.1 h
  cases h
  rw [sorted_sequence]
  refine ⟨⟨_, value_sort hx, rfl⟩, ⟨_, value_sort hy, rfl⟩, ⟨_, hresult _ ?_ ?_, rfl⟩,
    write_sorted htarget (.inl rfl) ?_, ⟨_, hrule _ ?_ ?_ ?_, globalSort_flag .t⟩, trivial⟩
  all_goals simp [Expr.sort?, Effect.assigned, tempSort, Context.width]

theorem addWithCarry_sorted (hw : cx.width = 32) (h : addWithCarry cx = .ok e) :
    e.Sorted (sorting cx.width) assigned := by
  refine withFlag_sorted h (fun _ hx hy => ?_) fun _ hx hy hr => ?_
  · simp [Expr.sort?, tempSort, hx, hy, hw]
  · simp [Expr.sort?, tempSort, Expr.addCarry, hx, hy, hr]

theorem addWithOverflow_sorted (h : addWithOverflow cx = .ok e) : e.Sorted (sorting cx.width) assigned := by
  refine withFlag_sorted h (fun _ hx hy => ?_) fun _ hx hy hr => ?_
  · simp [Expr.sort?, tempSort, hx, hy]
  · simp [Expr.sort?, tempSort, Expr.addOverflow, hx, hy, hr]

theorem subWithBorrow_sorted (hw : cx.width = 32) (h : subWithBorrow cx = .ok e) :
    e.Sorted (sorting cx.width) assigned := by
  refine withFlag_sorted h (fun _ hx hy => ?_) fun _ hx hy hr => ?_
  · simp [Expr.sort?, tempSort, hx, hy, hw]
  · simp [Expr.sort?, tempSort, Expr.subBorrow, hx, hy, hr]

theorem subWithUnderflow_sorted (h : subWithUnderflow cx = .ok e) : e.Sorted (sorting cx.width) assigned := by
  refine withFlag_sorted h (fun _ hx hy => ?_) fun _ hx hy hr => ?_
  · simp [Expr.sort?, tempSort, hx, hy]
  · simp [Expr.sort?, tempSort, Expr.subUnderflow, hx, hy, hr]

theorem negate_sorted (h : negate cx = .ok e) : e.Sorted (sorting cx.width) assigned := by
  obtain ⟨m, hm, h⟩ := Build.bind_eq_ok.1 h
  exact write_sorted h (.inl rfl) (by simp [Expr.sort?, value_sort hm])

theorem negateWithBorrow_sorted (hw : cx.width = 32) (h : negateWithBorrow cx = .ok e) :
    e.Sorted (sorting cx.width) assigned := by
  obtain ⟨y, hy, h⟩ := Build.bind_eq_ok.1 h
  obtain ⟨target, htarget, h⟩ := Build.bind_eq_ok.1 h
  cases h
  rw [sorted_sequence]
  refine ⟨⟨_, value_sort hy, rfl⟩, ⟨.bits cx.width, ?_, rfl⟩, write_sorted htarget (.inl rfl) ?_,
    ⟨.bool, ?_, globalSort_flag .t⟩, trivial⟩
  · simp [Expr.sort?, Effect.assigned, tempSort, hw]
  · simp [Expr.sort?, Effect.assigned, tempSort, Context.width]
  · simp [Expr.sort?, Effect.assigned, tempSort, Expr.subBorrow]

theorem decrementAndTest_sorted (hw : cx.width = 32) (h : decrementAndTest cx = .ok e) :
    e.Sorted (sorting cx.width) assigned := by
  obtain ⟨n, hn, h⟩ := Build.bind_eq_ok.1 h
  obtain ⟨target, htarget, h⟩ := Build.bind_eq_ok.1 h
  obtain ⟨n', hn', h⟩ := Build.bind_eq_ok.1 h
  cases h
  have hw : cx.insn.size.operandBits = 32 := hw
  rw [sorted_sequence]
  refine ⟨write_sorted htarget (.inr rfl) ?_, ⟨.bool, ?_, globalSort_flag .t⟩, trivial⟩
  · simp [Expr.sort?, value_sort hn, hw]
  · simp [Expr.sort?, value_sort hn']

theorem extend_sorted {isSigned : Bool} (h : extend cx isSigned = .ok e) : e.Sorted (sorting cx.width) assigned := by
  rw [extend_eq] at h
  obtain ⟨bits, hbits, h⟩ := Build.bind_eq_ok.1 h
  obtain ⟨v, hv, h⟩ := Build.bind_eq_ok.1 h
  have hpos : 0 < bits := by
    cases hsize : cx.insn.size <;> rw [hsize] at hbits <;> cases hbits <;> decide
  exact write_sorted h (.inr rfl) (by simp [Expr.sort?, value_sort hv, hpos])

/-! ## Comparisons -/

theorem compareEq_sorted (h : compareEq cx = .ok e) : e.Sorted (sorting cx.width) assigned := by
  obtain ⟨m, hm, h⟩ := Build.bind_eq_ok.1 h
  obtain ⟨n, hn, h⟩ := Build.bind_eq_ok.1 h
  cases h
  exact ⟨.bool, by simp [Expr.sort?, value_sort hm, value_sort hn], globalSort_flag .t⟩

/-- A comparison of two bit-vectors of one width. -/
def Compares (rule : Expr → Expr → Expr) : Prop :=
  ∀ (Γ : Sorting) (assigned : List String) (x y : Expr) (w : Nat), x.sort? Γ assigned = some (.bits w) →
    y.sort? Γ assigned = some (.bits w) → (rule x y).sort? Γ assigned = some .bool

theorem compares_cmp {op : CmpOp} (hop : op ≠ .eq) : Compares (.cmp op) := by
  intro Γ assigned x y w hx hy
  rw [Expr.sort?_cmp hop, hx, hy, ValueSort.common_self]
  rfl

theorem compare_sorted {rule : Expr → Expr → Expr} (hrule : Compares rule) (h : compare cx rule = .ok e) :
    e.Sorted (sorting cx.width) assigned := by
  obtain ⟨n, hn, h⟩ := Build.bind_eq_ok.1 h
  obtain ⟨m, hm, h⟩ := Build.bind_eq_ok.1 h
  cases h
  exact ⟨.bool, hrule _ _ _ _ _ (value_sort hn) (value_sort hm), globalSort_flag .t⟩

theorem compareZero_sorted {rule : Expr → Expr → Expr} (hrule : Compares rule) (hw : cx.width = 32)
    (h : compareZero cx rule = .ok e) : e.Sorted (sorting cx.width) assigned := by
  obtain ⟨n, hn, h⟩ := Build.bind_eq_ok.1 h
  cases h
  have hw : cx.insn.size.operandBits = 32 := hw
  exact ⟨.bool, hrule _ _ _ _ 32 (hw ▸ value_sort hn) rfl, globalSort_flag .t⟩

theorem compareBytes_sorted (hw : cx.width = 32) (h : compareBytes cx = .ok e) :
    e.Sorted (sorting cx.width) assigned := by
  obtain ⟨m, hm, h⟩ := Build.bind_eq_ok.1 h
  obtain ⟨n, hn, h⟩ := Build.bind_eq_ok.1 h
  cases h
  rw [sorted_sequence]
  refine ⟨⟨.bits cx.width, ?_, rfl⟩, ⟨.bool, ?_, globalSort_flag .t⟩, trivial⟩
  · simp [Expr.sort?, value_sort hm, value_sort hn, Context.width]
  · simp [Expr.sort?, Effect.assigned, tempSort, byteIsZero, hw]

theorem test_sorted (h : test cx = .ok e) : e.Sorted (sorting cx.width) assigned := by
  obtain ⟨m, hm, h⟩ := Build.bind_eq_ok.1 h
  obtain ⟨n, hn, h⟩ := Build.bind_eq_ok.1 h
  cases h
  exact ⟨.bool, by simp [Expr.sort?, value_sort hm, value_sort hn], globalSort_flag .t⟩

/-! ## Multiplication and division -/

theorem mach_sort : globalSort "mach" = some (.bits 32) := storage_words (n := Cpu.mach) rfl

theorem macl_sort : globalSort "macl" = some (.bits 32) := storage_words (n := Cpu.macl) rfl

theorem multiplyDouble_sorted {isSigned : Bool} (h : multiplyDouble cx isSigned = .ok e) :
    e.Sorted (sorting cx.width) assigned := by
  obtain ⟨m, hm, h⟩ := Build.bind_eq_ok.1 h
  obtain ⟨n, hn, h⟩ := Build.bind_eq_ok.1 h
  cases h
  rw [sorted_sequence]
  refine ⟨⟨.bits 64, ?_, rfl⟩, ⟨.bits 32, ?_, macl_sort⟩, ⟨.bits 32, ?_, mach_sort⟩, trivial⟩
  · simp [Expr.sort?, value_sort hm, value_sort hn]
  · simp [Expr.sort?, Effect.assigned, tempSort]
  · simp [Expr.sort?, Effect.assigned, tempSort]

theorem multiplyLong_sorted (hw : cx.width = 32) (h : multiplyLong cx = .ok e) :
    e.Sorted (sorting cx.width) assigned := by
  obtain ⟨m, hm, h⟩ := Build.bind_eq_ok.1 h
  obtain ⟨n, hn, h⟩ := Build.bind_eq_ok.1 h
  cases h
  have hw : cx.insn.size.operandBits = 32 := hw
  exact ⟨.bits 32, by simp [Expr.sort?, value_sort hm, value_sort hn, hw], macl_sort⟩

theorem multiplyWord_sorted {isSigned : Bool} (h : multiplyWord cx isSigned = .ok e) :
    e.Sorted (sorting cx.width) assigned := by
  obtain ⟨m, hm, h⟩ := Build.bind_eq_ok.1 h
  obtain ⟨n, hn, h⟩ := Build.bind_eq_ok.1 h
  cases h
  exact ⟨.bits 32, by simp [Expr.sort?, value_sort hm, value_sort hn], macl_sort⟩

theorem multiplyAccumulate_sorted {width : Nat} (bits : Nat) {form : MacForm} {n m : Expr}
    (hn : ∀ before, n.sort? (sorting width) (before ++ assigned) = some (.bits bits))
    (hm : ∀ before, m.sort? (sorting width) (before ++ assigned) = some (.bits bits)) :
    (multiplyAccumulate form n m).Sorted (sorting width) assigned := by
  have hpos : 0 < form.saturationBits := by cases form <;> decide
  rw [multiplyAccumulate, sorted_sequence]
  refine ⟨⟨.bits 64, ?_, rfl⟩, ⟨.bits 64, ?_, rfl⟩, ⟨?_, ⟨.bits 64, ?_, rfl⟩, trivial⟩, ⟨.bits 32, ?_, macl_sort⟩,
    ⟨.bits 32, ?_, mach_sort⟩, trivial⟩
  · simp [Expr.sort?, mach_sort, macl_sort]
  · have hn := hn ["mac"]
    have hm := hm ["mac"]
    simp only [List.singleton_append] at hn hm
    simp [Expr.sort?, Effect.assigned, tempSort, hn, hm]
  · simp [Expr.sort?]
  · simp [Expr.sort?, Effect.assigned, tempSort, hpos]
  · simp [Expr.sort?, Effect.assigned, tempSort]
  · simp [Expr.sort?, Effect.assigned, tempSort]

theorem multiplyAndAdd_sorted (h : multiplyAndAdd cx = .ok e) : e.Sorted (sorting cx.width) assigned := by
  rw [multiplyAndAdd_eq] at h
  obtain ⟨form, -, h⟩ := Build.bind_eq_ok.1 h
  obtain ⟨n, hn, h⟩ := Build.bind_eq_ok.1 h
  obtain ⟨m, hm, h⟩ := Build.bind_eq_ok.1 h
  cases h
  have hn := read_sorted cx.width hn
  have hm := read_sorted cx.width hm
  have hpost {r : OperandRead} {bits : Nat} (hr : r.Sorted cx.width bits) (assigned : List String) :
      AllSorted (sorting cx.width) assigned r.post.toList := by
    cases hp : r.post with
    | none => trivial
    | some e => exact ⟨hr.post assigned e hp, trivial⟩
  rw [sorted_sequence]
  simp only [allSorted_append, List.append_assoc]
  refine ⟨⟨⟨_, hn.value _, rfl⟩, trivial⟩, hpost hn _, ⟨⟨_, hm.value _, rfl⟩, trivial⟩, hpost hm _,
    multiplyAccumulate_sorted cx.width ?_ ?_, trivial⟩
  · intro before
    simp [Expr.sort?, allAssigned, Effect.assigned, tempSort]
  · intro before
    simp [Expr.sort?, allAssigned, Effect.assigned, tempSort]

theorem clearMac_sorted {width : Nat} : clearMac.Sorted (sorting width) assigned := by
  rw [clearMac, sorted_sequence]
  exact ⟨⟨.bits 32, rfl, mach_sort⟩, ⟨.bits 32, rfl, macl_sort⟩, trivial⟩

theorem divideArm_sorted {width : Nat} {subtract negated : Bool} (hr : "rem" ∈ assigned) (hd : "divisor" ∈ assigned) :
    (divideArm subtract negated).Sorted (sorting width) assigned := by
  rw [divideArm, sorted_sequence]
  refine ⟨⟨.bits 32, ?_, rfl⟩, ⟨.bits 32, ?_, rfl⟩, ⟨.bool, ?_, rfl⟩,
    ⟨?_, ⟨.bool, ?_, globalSort_flag .q⟩, .bool, ?_, globalSort_flag .q⟩, trivial⟩
  · simp [Expr.sort?, tempSort, hr]
  · cases subtract <;> simp [Expr.sort?, Effect.assigned, tempSort, hr, hd]
  · cases subtract <;> simp [Expr.sort?, Effect.assigned, tempSort]
  · simp [Expr.sort?]
  · cases negated <;> simp [Expr.sort?, Effect.assigned, tempSort]
  · cases negated <;> simp [Expr.sort?, Effect.assigned, tempSort]

theorem divideStep_sorted {width : Nat} {remainder divisor : Expr}
    (hr : ∀ assigned, remainder.sort? (sorting width) assigned = some (.bits 32))
    (hd : ∀ assigned, divisor.sort? (sorting width) assigned = some (.bits 32)) :
    (divideStep remainder divisor).Sorted (sorting width) assigned := by
  rw [divideStep, sorted_sequence]
  refine ⟨⟨.bool, ?_, rfl⟩, ⟨.bits 32, hd _, rfl⟩, ⟨.bits 32, hr _, rfl⟩, ⟨.bool, ?_, globalSort_flag .q⟩,
    ⟨.bits 32, ?_, rfl⟩,
    ⟨?_, ⟨?_, divideArm_sorted ?_ ?_, divideArm_sorted ?_ ?_⟩, ?_, divideArm_sorted ?_ ?_, divideArm_sorted ?_ ?_⟩,
    ⟨.bool, ?_, globalSort_flag .t⟩, trivial⟩
  all_goals simp [Expr.sort?, Effect.assigned, tempSort]

theorem divide_sorted (hw : cx.width = 32) (h : divide cx = .ok e) : e.Sorted (sorting cx.width) assigned := by
  obtain ⟨remainder, hr, h⟩ := Build.bind_eq_ok.1 h
  obtain ⟨divisor, hd, h⟩ := Build.bind_eq_ok.1 h
  obtain ⟨target, ht, h⟩ := Build.bind_eq_ok.1 h
  cases h
  have hw : cx.insn.size.operandBits = 32 := hw
  rw [sorted_sequence]
  refine ⟨divideStep_sorted (fun _ => hw ▸ value_sort hr) (fun _ => hw ▸ value_sort hd), ?_, trivial⟩
  refine write_sorted ht (.inr rfl) ?_
  simp [Expr.sort?, divideStep, assigned_sequence, allAssigned, Effect.assigned, tempSort]

theorem divideSigned_sorted (h : divideSigned cx = .ok e) : e.Sorted (sorting cx.width) assigned := by
  obtain ⟨m, hm, h⟩ := Build.bind_eq_ok.1 h
  obtain ⟨n, hn, h⟩ := Build.bind_eq_ok.1 h
  cases h
  rw [sorted_sequence]
  refine ⟨⟨.bool, ?_, globalSort_flag .m⟩, ⟨.bool, ?_, globalSort_flag .q⟩, ⟨.bool, ?_, globalSort_flag .t⟩, trivial⟩
  · simp [Expr.sort?, value_sort hm]
  · simp [Expr.sort?, value_sort hn]
  · simp [Expr.sort?, value_sort hm, value_sort hn]

theorem divideUnsigned_sorted {width : Nat} : divideUnsigned.Sorted (sorting width) assigned := by
  rw [divideUnsigned, sorted_sequence]
  exact ⟨⟨.bool, rfl, globalSort_flag .m⟩, ⟨.bool, rfl, globalSort_flag .q⟩, ⟨.bool, rfl, globalSort_flag .t⟩, trivial⟩

/-! ## Logic and shifts -/

theorem bitwise_sorted {op : ArithOp} (h : bitwise cx (.arith op) = .ok e) : e.Sorted (sorting cx.width) assigned := by
  obtain ⟨m, hm, h⟩ := Build.bind_eq_ok.1 h
  obtain ⟨n, hn, h⟩ := Build.bind_eq_ok.1 h
  exact write_sorted h (.inl rfl) (by simp [Expr.sort?, value_sort hm, value_sort hn])

theorem bitNot_sorted (h : bitNot cx = .ok e) : e.Sorted (sorting cx.width) assigned := by
  obtain ⟨m, hm, h⟩ := Build.bind_eq_ok.1 h
  exact write_sorted h (.inl rfl) (by simp [Expr.sort?, value_sort hm])

theorem testAndSet_sorted (h : testAndSet cx = .ok e) : e.Sorted (sorting cx.width) assigned := by
  obtain ⟨byte, hbyte, h⟩ := Build.bind_eq_ok.1 h
  obtain ⟨target, htarget, h⟩ := Build.bind_eq_ok.1 h
  cases h
  rw [sorted_sequence]
  refine ⟨⟨.bits 8, value_sort hbyte, rfl⟩, ⟨.bool, ?_, globalSort_flag .t⟩, write_sorted htarget (.inl rfl) ?_, trivial⟩
  · simp [Expr.sort?, Effect.assigned, tempSort]
  · simp [Expr.sort?, Effect.assigned, tempSort, AccessSize.operandBits]

/-- Setting T and the operand from the variable `v`, T first. -/
theorem flagThenTarget_sorted {v bit result : Expr} {target : Effect} (hv : cx.value 0 = .ok v)
    (htarget : cx.write 0 result = .ok target)
    (hbit : ∀ assigned, "v" ∈ assigned → bit.sort? (sorting cx.width) assigned = some .bool)
    (hresult : ∀ assigned, "v" ∈ assigned → result.sort? (sorting cx.width) assigned = some (.bits cx.width)) :
    (sequence [setTemp "v" v, Flag.t.assign bit, target]).Sorted (sorting cx.width) assigned := by
  rw [sorted_sequence]
  refine ⟨⟨_, value_sort hv, rfl⟩, ⟨.bool, hbit _ ?_, globalSort_flag .t⟩,
    write_sorted htarget (.inl rfl) (hresult _ ?_), trivial⟩
  all_goals simp [Effect.assigned]

/-- Setting the operand and T from the variable `v`, T last. -/
theorem targetThenFlag_sorted {v bit result : Expr} {target : Effect} (hv : cx.value 0 = .ok v)
    (htarget : cx.write 0 result = .ok target)
    (hbit : ∀ assigned, "v" ∈ assigned → bit.sort? (sorting cx.width) assigned = some .bool)
    (hresult : ∀ assigned, "v" ∈ assigned → result.sort? (sorting cx.width) assigned = some (.bits cx.width)) :
    (sequence [setTemp "v" v, target, Flag.t.assign bit]).Sorted (sorting cx.width) assigned := by
  rw [sorted_sequence]
  refine ⟨⟨_, value_sort hv, rfl⟩, write_sorted htarget (.inl rfl) (hresult _ ?_),
    ⟨.bool, hbit _ ?_, globalSort_flag .t⟩, trivial⟩
  all_goals simp [Effect.assigned]

theorem rotateLeft_sorted (h : rotateLeft cx = .ok e) : e.Sorted (sorting cx.width) assigned := by
  obtain ⟨v, hv, h⟩ := Build.bind_eq_ok.1 h
  obtain ⟨target, htarget, h⟩ := Build.bind_eq_ok.1 h
  cases h
  refine flagThenTarget_sorted hv htarget (fun _ hm => ?_) fun _ hm => ?_
  · simp [Expr.sort?, tempSort, hm]
  · simp [Expr.sort?, tempSort, rotatedUp, hm]

theorem rotateRight_sorted (h : rotateRight cx = .ok e) : e.Sorted (sorting cx.width) assigned := by
  obtain ⟨v, hv, h⟩ := Build.bind_eq_ok.1 h
  obtain ⟨target, htarget, h⟩ := Build.bind_eq_ok.1 h
  cases h
  refine flagThenTarget_sorted hv htarget (fun _ hm => ?_) fun _ hm => ?_
  · simp [Expr.sort?, tempSort, hm]
  · simp [Expr.sort?, tempSort, rotatedDown, hm]

theorem rotateLeftThrough_sorted (hw : cx.width = 32) (h : rotateLeftThrough cx = .ok e) :
    e.Sorted (sorting cx.width) assigned := by
  obtain ⟨v, hv, h⟩ := Build.bind_eq_ok.1 h
  obtain ⟨target, htarget, h⟩ := Build.bind_eq_ok.1 h
  cases h
  refine targetThenFlag_sorted hv htarget (fun _ hm => ?_) fun _ hm => ?_
  · simp [Expr.sort?, tempSort, hm]
  · simp [Expr.sort?, tempSort, rotatedUp, hm, hw]

theorem rotateRightThrough_sorted (hw : cx.width = 32) (h : rotateRightThrough cx = .ok e) :
    e.Sorted (sorting cx.width) assigned := by
  obtain ⟨v, hv, h⟩ := Build.bind_eq_ok.1 h
  obtain ⟨target, htarget, h⟩ := Build.bind_eq_ok.1 h
  cases h
  refine targetThenFlag_sorted hv htarget (fun _ hm => ?_) fun _ hm => ?_
  · simp [Expr.sort?, tempSort, hm]
  · simp [Expr.sort?, tempSort, rotatedDown, hm, hw]

theorem shiftLeft_sorted (h : shiftLeft cx = .ok e) : e.Sorted (sorting cx.width) assigned := by
  obtain ⟨v, hv, h⟩ := Build.bind_eq_ok.1 h
  obtain ⟨target, htarget, h⟩ := Build.bind_eq_ok.1 h
  cases h
  rw [sorted_sequence]
  refine ⟨⟨.bool, ?_, globalSort_flag .t⟩, write_sorted htarget (.inl rfl) ?_, trivial⟩
  · simp [Expr.sort?, value_sort hv]
  · simp [Expr.sort?, value_sort hv]

theorem shiftRight_sorted {arithmetic : Bool} (h : shiftRight cx arithmetic = .ok e) :
    e.Sorted (sorting cx.width) assigned := by
  obtain ⟨v, hv, h⟩ := Build.bind_eq_ok.1 h
  obtain ⟨target, htarget, h⟩ := Build.bind_eq_ok.1 h
  cases h
  rw [sorted_sequence]
  refine ⟨⟨.bool, ?_, globalSort_flag .t⟩, write_sorted htarget (.inl rfl) ?_, trivial⟩
  · simp [Expr.sort?, value_sort hv]
  · cases arithmetic <;> simp [Expr.sort?, value_sort hv]

theorem shiftBy_sorted {left : Bool} {places : Nat} (h : shiftBy cx left places = .ok e) :
    e.Sorted (sorting cx.width) assigned := by
  obtain ⟨v, hv, h⟩ := Build.bind_eq_ok.1 h
  exact write_sorted h (.inl rfl) (by cases left <;> simp [Expr.sort?, value_sort hv])

theorem shiftDynamic_sorted {arithmetic : Bool} (hw : cx.width = 32) (h : shiftDynamic cx arithmetic = .ok e) :
    e.Sorted (sorting cx.width) assigned := by
  obtain ⟨amount, hamount, h⟩ := Build.bind_eq_ok.1 h
  obtain ⟨v, hv, h⟩ := Build.bind_eq_ok.1 h
  obtain ⟨left, hleft, h⟩ := Build.bind_eq_ok.1 h
  obtain ⟨right, hright, h⟩ := Build.bind_eq_ok.1 h
  cases h
  rw [sorted_sequence]
  refine ⟨⟨_, value_sort hamount, rfl⟩, ⟨_, value_sort hv, rfl⟩,
    ⟨?_, write_sorted hleft (.inr rfl) ?_, write_sorted hright (.inr rfl) ?_⟩, trivial⟩
  · simp [Expr.sort?, Effect.assigned, tempSort, hw]
  · simp [Expr.sort?, Effect.assigned, tempSort, hw]
  · cases arithmetic <;> simp [Expr.sort?, Effect.assigned, tempSort, hw]

/-! ## Branches -/

theorem branchIf_sorted {condition : Bool} (h : branchIf cx condition = .ok e) :
    e.Sorted (sorting cx.width) assigned := by
  obtain ⟨a, ha, h⟩ := Build.bind_eq_ok.1 h
  cases h
  cases condition
  · exact ⟨globalSort_flag .t, trivial, _, address_sort ha⟩
  · exact ⟨globalSort_flag .t, ⟨_, address_sort ha⟩, trivial⟩

theorem jump_sorted (h : jump cx = .ok e) : e.Sorted (sorting cx.width) assigned := by
  obtain ⟨a, ha, h⟩ := Build.bind_eq_ok.1 h
  cases h
  exact ⟨_, address_sort ha⟩

theorem pr_sort : globalSort "pr" = some (.bits 32) := storage_words (n := Cpu.pr) rfl

theorem call_sorted (h : call cx = .ok e) : e.Sorted (sorting cx.width) assigned := by
  obtain ⟨a, ha, h⟩ := Build.bind_eq_ok.1 h
  cases h
  rw [sorted_sequence]
  exact ⟨⟨.bits 32, rfl, pr_sort⟩, ⟨_, address_sort ha⟩, trivial⟩

theorem returnFromException_sorted {width : Nat} : returnFromException.Sorted (sorting width) assigned := by
  have hssr : globalSort "ssr" = some (.bits 32) := storage_words (n := Cpu.ssr) rfl
  have hspc : globalSort "spc" = some (.bits 32) := storage_words (n := Cpu.spc) rfl
  rw [returnFromException, sorted_sequence]
  exact ⟨setStatus_sorted hssr, ⟨_, hspc⟩, trivial⟩

/-! ## Instructions -/

/-- The effect of an instruction is well sorted; one that works on words only has to have the size of a register. -/
theorem effect_sorted (hw : cx.insn.mnemonic.WordOnly → cx.width = 32) (h : effect cx = .ok e) :
    e.Sorted (sorting cx.width) assigned := by
  cases hm : cx.insn.mnemonic <;> rw [effect, hm] at h <;> rw [hm] at hw
  case invalid => cases h
  case mov | movca | ldc | lds | stc | sts => exact move_sorted h
  case movt => exact moveCondition_sorted h
  case swap => exact swap_sorted h
  case xtrct => exact extract_sorted h
  case add => exact add_sorted h
  case addc => exact addWithCarry_sorted (hw trivial) h
  case addv => exact addWithOverflow_sorted h
  case sub => exact sub_sorted h
  case subc => exact subWithBorrow_sorted (hw trivial) h
  case subv => exact subWithUnderflow_sorted h
  case neg => exact negate_sorted h
  case negc => exact negateWithBorrow_sorted (hw trivial) h
  case dt => exact decrementAndTest_sorted (hw trivial) h
  case exts | extu => exact extend_sorted h
  case cmpEq => exact compareEq_sorted h
  case cmpHs | cmpGe | cmpHi | cmpGt => exact compare_sorted (compares_cmp (by decide)) h
  case cmpPz | cmpPl => exact compareZero_sorted (compares_cmp (by decide)) (hw trivial) h
  case cmpStr => exact compareBytes_sorted (hw trivial) h
  case tst => exact test_sorted h
  case div1 => exact divide_sorted (hw trivial) h
  case div0s => exact divideSigned_sorted h
  case div0u => cases h; exact divideUnsigned_sorted
  case dmuls | dmulu => exact multiplyDouble_sorted h
  case mul => exact multiplyLong_sorted (hw trivial) h
  case muls | mulu => exact multiplyWord_sorted h
  case mac => exact multiplyAndAdd_sorted h
  case clrmac => cases h; exact clearMac_sorted
  case and | or | xor => exact bitwise_sorted h
  case not => exact bitNot_sorted h
  case tas => exact testAndSet_sorted h
  case rotl => exact rotateLeft_sorted h
  case rotr => exact rotateRight_sorted h
  case rotcl => exact rotateLeftThrough_sorted (hw trivial) h
  case rotcr => exact rotateRightThrough_sorted (hw trivial) h
  case shad | shld => exact shiftDynamic_sorted (hw trivial) h
  case shal | shll => exact shiftLeft_sorted h
  case shar | shlr => exact shiftRight_sorted h
  case shll2 | shlr2 | shll8 | shlr8 | shll16 | shlr16 => exact shiftBy_sorted h
  case bf | bfs | bt | bts => exact branchIf_sorted h
  case bra | braf | jmp => exact jump_sorted h
  case bsr | bsrf | jsr => exact call_sorted h
  case rts => cases h; exact ⟨_, pr_sort⟩
  case rte => cases h; exact returnFromException_sorted
  case clrs | sets => cases h; exact ⟨.bool, rfl, globalSort_flag .s⟩
  case clrt | sett => cases h; exact ⟨.bool, rfl, globalSort_flag .t⟩
  case nop | sleep | unimpl => cases h; trivial

end Lift
end SuperH
