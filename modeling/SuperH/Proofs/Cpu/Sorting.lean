import SuperH.Proofs.Bits.Value
import SuperH.Proofs.Cpu.Policy
import SuperH.Proofs.Vm.Sorting

/-!
# Sorts of operands

* `Cpu.sorting` : the variables that the register layout binds, and the variables that instructions at a width of
  access use for themselves;
* `AccessSize.operandBits` : the width of an operand's value;
* `read_sorted`, `write_sorted`, `address_sorted` : operands are read at that width, accept it, and have 32-bit
  addresses.
-/

namespace SuperH

/-- The width of an operand's value. An operand without a size is read as a register. -/
def AccessSize.operandBits : AccessSize → Nat
  | .byte => 8
  | .word => 16
  | .unsized | .long => 32

namespace Cpu

/-- The sort of a machine variable: the one that the layout's binding gives it. -/
def globalSort (name : String) : Option ValueSort := ((Binding.derive profile).get? name).map Bound.sort

/-- The sort of an instruction variable, for an instruction that works at a width. -/
def tempSort (width : Nat) : String → Option ValueSort
  | "x" | "y" | "res" | "v" | "amount" | "diff" | "mac_n" | "mac_m" => some (.bits width)
  | "sr_val" | "src" | "rem" | "divisor" | "tmp0" => some (.bits 32)
  | "old_q" | "tmp1" => some .bool
  | "mac" | "prod" => some (.bits 64)
  | "byte" => some (.bits 8)
  | _ => none

/-- The sorts of all variables, for an instruction that works at a width. -/
def sorting (width : Nat) : Sorting := ⟨globalSort, tempSort width⟩

/-! ## Registers -/

@[simp] theorem globalSort_flag (flag : Flag) : globalSort flag.var = some .bool := by
  have : ∀ f ∈ Flag.all, globalSort f.var = some .bool := by decide
  exact this flag (by cases flag <;> decide)

namespace Storage

/-- The variables behind a register hold words. -/
def Words : Storage → Prop
  | .inUse b0 b1 | .notInUse b0 b1 => globalSort b0 = some (.bits 32) ∧ globalSort b1 = some (.bits 32)
  | .status => True
  | .own name => globalSort name = some (.bits 32)

instance : DecidablePred Words
  | .inUse _ _ | .notInUse _ _ => inferInstanceAs (Decidable (_ ∧ _))
  | .status => inferInstanceAs (Decidable True)
  | .own name => inferInstanceAs (Decidable (globalSort name = some (.bits 32)))

end Storage

theorem storage_words {n : Nat} {s : Storage} (h : storage n = .ok s) : s.Words := by
  have hall : ∀ i < regCount, ∀ s ∈ (storage i).toOption, s.Words := by decide
  exact hall n (lt_of_storage h) s (by rw [h]; rfl)

variable {width : Nat} {assigned : List String}

/-! ## The sorts of trees -/

@[simp] theorem var_flag (flag : Flag) : (sorting width).var assigned ⟨.global, flag.var⟩ = some .bool :=
  globalSort_flag flag

@[simp] theorem var_global (name : String) : (sorting width).var assigned ⟨.global, name⟩ = globalSort name := rfl

@[simp] theorem var_temp (name : String) : (sorting width).var assigned ⟨.temp, name⟩ =
    if name ∈ assigned then tempSort width name else none := rfl

@[simp] theorem declared_global (name : String) : (sorting width).declared ⟨.global, name⟩ = globalSort name := rfl

@[simp] theorem declared_temp (name : String) : (sorting width).declared ⟨.temp, name⟩ = tempSort width name := rfl

theorem statusExpr_sort : statusExpr.sort? (sorting width) assigned = some (.bits 32) := by
  simp [statusExpr, Flag.all, Expr.sort?]

theorem setStatus_sorted {value : Expr} (h : value.sort? (sorting width) assigned = some (.bits 32)) :
    (setStatus value).Sorted (sorting width) assigned := by
  rw [setStatus, Effect.sorted_sequence]
  simp [Effect.AllSorted, Effect.Sorted, Effect.assigned, Flag.all, Expr.sort?, tempSort, h]

theorem Storage.read_sort {s : Storage} (h : s.Words) : s.read.sort? (sorting width) assigned = some (.bits 32) := by
  cases s with
  | inUse b0 b1 => simp [read, bank1Selected, Expr.sort?, h.1, h.2]
  | status => exact statusExpr_sort
  | notInUse b0 b1 => simp [read, Expr.sort?, h.1, h.2]
  | own name => exact h

theorem Storage.write_sorted {s : Storage} {value : Expr} (h : s.Words)
    (hv : value.sort? (sorting width) assigned = some (.bits 32)) :
    (s.write value).Sorted (sorting width) assigned := by
  cases s with
  | inUse b0 b1 => simp [write, bank1Selected, Effect.Sorted, Expr.sort?, hv, h.1, h.2]
  | status => exact setStatus_sorted hv
  | notInUse b0 b1 => simp [write, Effect.Sorted, Expr.sort?, hv, h.1, h.2]
  | own name => exact ⟨.bits 32, hv, h⟩

theorem getReg_sort {n : Nat} {e : Expr} (he : getReg n = .ok e) :
    e.sort? (sorting width) assigned = some (.bits 32) := by
  obtain ⟨s, hs, rfl⟩ := getReg_eq_ok.1 he
  exact Storage.read_sort (storage_words hs)

theorem setReg_sorted {n : Nat} {value : Expr} {e : Effect} (he : setReg n value = .ok e)
    (hv : value.sort? (sorting width) assigned = some (.bits 32)) : e.Sorted (sorting width) assigned := by
  obtain ⟨s, hs, rfl⟩ := setReg_eq_ok.1 he
  exact Storage.write_sorted (storage_words hs) hv

/-! ## Operands -/

variable {o : Operand} {size : AccessSize} {pc : Nat}

theorem effectiveAddress_sort {e : Expr} (he : effectiveAddress o size pc = .ok (some e)) :
    e.sort? (sorting width) assigned = some (.bits 32) := by
  cases o with
  | reg n | immU v | immS v => cases he
  | indirect n | postInc n | preDec n =>
    obtain ⟨r, hr, he⟩ := Build.bind_eq_ok.1 he
    cases he
    exact getReg_sort hr
  | displaced n disp | gbrDisp disp =>
    obtain ⟨r, hr, he⟩ := Build.bind_eq_ok.1 he
    obtain ⟨bytes, -, he⟩ := Build.bind_eq_ok.1 he
    cases he
    simp [Expr.sort?, getReg_sort hr]
  | indexed n | gbrIndexed =>
    obtain ⟨r, hr, he⟩ := Build.bind_eq_ok.1 he
    obtain ⟨r', hr', he⟩ := Build.bind_eq_ok.1 he
    cases he
    simp [Expr.sort?, getReg_sort hr, getReg_sort hr']
  | pcDisp disp =>
    obtain ⟨bytes, -, he⟩ := Build.bind_eq_ok.1 he
    cases he
    simp only [afterFetch]
    split <;> simp [Expr.sort?]
  | pcRel8 disp | pcRel12 disp =>
    cases he
    simp [Expr.sort?, afterFetch, branchOffset]
  | pcReg n =>
    obtain ⟨r, hr, he⟩ := Build.bind_eq_ok.1 he
    cases he
    simp [Expr.sort?, afterFetch, getReg_sort hr]

theorem address_sort {e : Expr} (he : address o size pc = .ok e) :
    e.sort? (sorting width) assigned = some (.bits 32) := by
  obtain ⟨a, ha, he⟩ := Build.bind_eq_ok.1 he
  cases a with
  | none => cases he
  | some addr =>
    cases he
    exact effectiveAddress_sort ha

/-- The value of an operand has its width, whatever is assigned before, and so have the effects around its use. -/
structure OperandRead.Sorted (width bits : Nat) (r : OperandRead) : Prop where
  pre : ∀ assigned, ∀ e ∈ r.pre, e.Sorted (sorting width) assigned
  value : ∀ assigned, r.value.sort? (sorting width) assigned = some (.bits bits)
  post : ∀ assigned, ∀ e ∈ r.post, e.Sorted (sorting width) assigned

theorem none_sorted (assigned : List String) : ∀ e ∈ (none : Option Effect), e.Sorted (sorting width) assigned :=
  fun e he => absurd he (Option.not_mem_none e)

theorem some_sorted {e : Effect} (h : ∀ assigned, e.Sorted (sorting width) assigned) (assigned : List String) :
    ∀ e' ∈ some e, e'.Sorted (sorting width) assigned :=
  fun _ he => Option.some.inj he ▸ h assigned

theorem around_sorted {pre post : Option Effect} {target : Effect}
    (hpre : ∀ assigned, ∀ e ∈ pre, e.Sorted (sorting width) assigned)
    (ht : ∀ before, target.Sorted (sorting width) (before ++ assigned))
    (hpost : ∀ assigned, ∀ e ∈ post, e.Sorted (sorting width) assigned) :
    (around pre target post).Sorted (sorting width) assigned := by
  unfold around
  split
  · exact ht []
  · rw [Effect.sorted_sequence]
    have hpost (assigned : List String) : Effect.AllSorted (sorting width) assigned post.toList := by
      cases post with
      | none => trivial
      | some e => exact ⟨hpost assigned e rfl, trivial⟩
    cases pre with
    | none => exact ⟨ht [], hpost _⟩
    | some e => exact ⟨hpre assigned e rfl, ht e.assigned, hpost _⟩

theorem accessBits_eq_ok {bits : Nat} (h : accessBits size = .ok bits) :
    bits = size.operandBits ∧ bits ≠ 0 ∧ bits % 8 = 0 ∧ bits < 2 ^ 32 := by
  cases size with
  | unsized => cases h
  | byte | word | long =>
    cases h
    decide

theorem operandBits_mod (size : AccessSize) : size.operandBits % 8 = 0 := by
  cases size <;> rfl

theorem lowBits_sort {e : Expr} (he : e.sort? (sorting width) assigned = some (.bits 32)) :
    (lowBits size e).sort? (sorting width) assigned = some (.bits size.operandBits) := by
  cases size <;> simp [lowBits, Expr.sort?, he, AccessSize.operandBits]

theorem read_sorted (width : Nat) {r : OperandRead} (hr : read o size pc = .ok r) :
    r.Sorted width size.operandBits := by
  have load {bits : Nat} {a : Expr} (hbits : accessBits size = .ok bits) (ha : address o size pc = .ok a)
      (assigned : List String) :
      (Expr.load bits a).sort? (sorting width) assigned = some (.bits size.operandBits) := by
    obtain ⟨rfl, h₀, h₈, hlt⟩ := accessBits_eq_ok hbits
    exact Expr.sort?_load h₀ h₈ hlt (address_sort ha)
  cases o with
  | reg n =>
    obtain ⟨e, he, hr⟩ := Build.bind_eq_ok.1 hr
    cases hr
    exact ⟨none_sorted, fun _ => lowBits_sort (getReg_sort he), none_sorted⟩
  | immU v | immS v =>
    cases hr
    refine ⟨none_sorted, fun _ => ?_, none_sorted⟩
    cases size <;> rfl
  | postInc n =>
    obtain ⟨bytes, -, hr⟩ := Build.bind_eq_ok.1 hr
    obtain ⟨bits, hbits, hr⟩ := Build.bind_eq_ok.1 hr
    obtain ⟨a, ha, hr⟩ := Build.bind_eq_ok.1 hr
    obtain ⟨e, he, hr⟩ := Build.bind_eq_ok.1 hr
    obtain ⟨post, hpost, hr⟩ := Build.bind_eq_ok.1 hr
    cases hr
    have hpost (assigned) : post.Sorted (sorting width) assigned :=
      setReg_sorted hpost (by simp [Expr.sort?, getReg_sort he])
    exact ⟨none_sorted, load hbits ha, some_sorted hpost⟩
  | preDec n =>
    obtain ⟨bytes, -, hr⟩ := Build.bind_eq_ok.1 hr
    obtain ⟨e, he, hr⟩ := Build.bind_eq_ok.1 hr
    obtain ⟨pre, hpre, hr⟩ := Build.bind_eq_ok.1 hr
    obtain ⟨bits, hbits, hr⟩ := Build.bind_eq_ok.1 hr
    obtain ⟨a, ha, hr⟩ := Build.bind_eq_ok.1 hr
    cases hr
    have hpre (assigned) : pre.Sorted (sorting width) assigned :=
      setReg_sorted hpre (by simp [Expr.sort?, getReg_sort he])
    exact ⟨some_sorted hpre, load hbits ha, none_sorted⟩
  | indirect | displaced | indexed | gbrDisp | gbrIndexed | pcDisp | pcRel8 | pcRel12 | pcReg =>
    obtain ⟨bits, hbits, hr⟩ := Build.bind_eq_ok.1 hr
    obtain ⟨a, ha, hr⟩ := Build.bind_eq_ok.1 hr
    cases hr
    exact ⟨none_sorted, load hbits ha, none_sorted⟩

/-- An operand can be set to a value of its width, and also to a word. -/
theorem write_sorted {value : Expr} {bits : Nat} {e : Effect} (he : write o value size pc = .ok e)
    (hbits : bits = size.operandBits ∨ bits = 32) (hv : value.sort? (sorting width) assigned = some (.bits bits)) :
    e.Sorted (sorting width) assigned := by
  cases o with
  | reg n =>
    cases size with
    | byte | word => exact setReg_sorted he (by simp [Expr.sort?, hv])
    | unsized | long =>
      obtain rfl : bits = 32 := hbits.elim id id
      exact setReg_sorted he hv
  | immU v | immS v => cases he
  | indirect | postInc | preDec | displaced | indexed | gbrDisp | gbrIndexed | pcDisp | pcRel8 | pcRel12 | pcReg =>
    obtain ⟨access, hr, he⟩ := Build.bind_eq_ok.1 he
    obtain ⟨a, ha, he⟩ := Build.bind_eq_ok.1 he
    cases he
    have hr := read_sorted width hr
    have hmod : bits % 8 = 0 := by
      rcases hbits with rfl | rfl
      · exact operandBits_mod size
      · rfl
    refine around_sorted hr.pre (fun before => ⟨address_sort ha, bits, ?_, hmod⟩) hr.post
    exact Expr.sort?_mono (fun n hn => List.mem_append_right _ hn) hv

end Cpu
end SuperH
