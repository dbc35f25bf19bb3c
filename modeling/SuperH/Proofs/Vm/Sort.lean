import SuperH.Proofs.Run.Contract

/-!
# Sorts of variables

* `ValueSort`, `Value.sort` : a truth value, or a bit-vector of a width; `Bound.sort` : the sort of a bound register;
* `lookup_assign` : what an assignment changes;
* `Vm.setGlobal_eq`, `Vm.setPc_eq`, … : the operations of the interpreter in one equation each.
-/

namespace SuperH

/-- The sort of a value: a truth value, or a bit-vector of some width. -/
inductive ValueSort where
  | bool
  | bits (width : Nat)
  deriving DecidableEq, Repr

/-- The sort of a value. -/
def Value.sort : Value → ValueSort
  | .bool _ => .bool
  | .bits v => .bits v.width

/-- The sort of a bound register's variable. -/
def Bound.sort (b : Bound) : ValueSort := if b.size = 1 then .bool else .bits b.size

namespace Value

theorem checkSort_eq_ok {old new : Value} : old.checkSort new = .ok () ↔ old.sort = new.sort := by
  cases old with
  | bool b => cases new <;> simp [checkSort, sort]
  | bits v =>
    cases new with
    | bool b => simp [checkSort, sort]
    | bits w => by_cases h : v.width = w.width <;> simp [checkSort, sort, h]

theorem eq_bool_of_sort {x : Value} (h : x.sort = .bool) : ∃ b, x = .bool b := by
  cases x with
  | bool b => exact ⟨b, rfl⟩
  | bits v => cases h

theorem eq_bits_of_sort {x : Value} {width : Nat} (h : x.sort = .bits width) : ∃ v, x = .bits v ∧ v.width = width := by
  cases x with
  | bool b => cases h
  | bits v => exact ⟨v, rfl, ValueSort.bits.inj h⟩

/-- A sort decides the number of bits. -/
theorem width_eq_of_sort {x y : Value} (h : x.sort = y.sort) : x.width = y.width := by
  cases x with
  | bool b =>
    obtain ⟨c, rfl⟩ := eq_bool_of_sort h.symm
    rfl
  | bits v =>
    obtain ⟨w, rfl, hw⟩ := eq_bits_of_sort h.symm
    exact hw.symm

end Value

/-! ## Variables -/

namespace Env

theorem lookup_assign (env : Env) (name : String) (value : Value) (n : String) :
    (env.assign name value).lookup n = if n = name then (env.lookup name).map fun _ => value else env.lookup n := by
  induction env with
  | nil => simp [assign]
  | cons g env ih =>
    obtain ⟨m, old⟩ := g
    by_cases hm : m = name
    · subst hm
      by_cases hn : n = m
      · simp [assign, hn]
      · have : (n == m) = false := by simpa using hn
        simp [assign, List.lookup_cons, hn, this]
    · have hnm : (name == m) = false := by simpa using Ne.symm hm
      by_cases hn : n = m
      · subst hn
        simp [assign, hm]
      · have : (n == m) = false := by simpa using hn
        simp [assign, List.lookup_cons, hm, this, hnm, ih]

theorem lookup_eq_none_iff {env : Env} {name : String} : env.lookup name = none ↔ name ∉ env.map (·.1) := by
  induction env with
  | nil => simp
  | cons g env ih =>
    obtain ⟨m, x⟩ := g
    by_cases hm : name = m
    · simp [hm]
    · have : (name == m) = false := by simpa using hm
      simp [List.lookup_cons, this, ih, hm]

/-- Variables with distinct names are determined by their names and by what a lookup finds. -/
theorem ext_of_nodup {env env' : Env} (hnames : env.map (·.1) = env'.map (·.1)) (hnodup : (env.map (·.1)).Nodup)
    (h : ∀ n ∈ env.map (·.1), env.lookup n = env'.lookup n) : env = env' := by
  induction env generalizing env' with
  | nil => simpa using hnames.symm
  | cons g env ih =>
    cases env' with
    | nil => simp at hnames
    | cons g' env' =>
      obtain ⟨m, x⟩ := g
      obtain ⟨m', x'⟩ := g'
      simp only [List.map_cons, List.cons.injEq] at hnames
      obtain ⟨rfl, hnames⟩ := hnames
      simp only [List.map_cons, List.nodup_cons] at hnodup
      have hx : x = x' := by simpa using h m (by simp)
      have hrest : env = env' := by
        refine ih hnames hnodup.2 fun n hn => ?_
        have hne : (n == m) = false := by
          rw [beq_eq_false_iff_ne]
          rintro rfl
          exact hnodup.1 hn
        have := h n (by simp [hn])
        simpa [List.lookup_cons, hne] using this
      rw [hx, hrest]

end Env

/-! ## Operations of the interpreter -/

namespace Vm

theorem lookup_global_eq_ok {vm : Vm} {name : String} {x : Value} :
    vm.lookup ⟨.global, name⟩ = .ok x ↔ vm.get? name = some x := by
  have hget : vm.get? name = vm.globals.lookup name := rfl
  unfold lookup
  rw [hget]
  dsimp only
  cases vm.globals.lookup name <;> simp

theorem get?_replace (vm : Vm) (name : String) (value : Value) (n : String) :
    (vm.replace name value).get? n = if n = name then (vm.get? name).map fun _ => value else vm.get? n :=
  Env.lookup_assign ..

theorem setGlobal_eq (name : String) (value : Value) (vm : Vm) :
    setGlobal name value vm = match vm.get? name with
      | none => .error (.error (.unknownVariable .global name)) vm
      | some old => match old.checkSort value with
        | .ok () => .ok () (vm.replace name value)
        | .error e => .error (.error e) vm := by
  show (match vm.get? name with
    | none => throw (.error (.unknownVariable .global name))
    | some old => do
      Failure.ofError (old.checkSort value)
      set (vm.replace name value) : VmM Unit) vm = _
  cases vm.get? name with
  | none => rfl
  | some old => cases h : old.checkSort value <;> simp only [h] <;> rfl

theorem takeEvents_eq (vm : Vm) : takeEvents vm = .ok vm.events { vm with events := [] } := rfl

theorem setPc_eq_dite (target : Bits) (vm : Vm) :
    setPc target vm = if h : 0 < vm.config.pcBits then .ok () { vm with pc := target.setWidth vm.config.pcBits h }
      else .error (.fault .zeroWidth) vm := by
  show (if h : 0 < vm.config.pcBits then set { vm with pc := target.setWidth vm.config.pcBits h }
    else throw (.fault .zeroWidth) : VmM Unit) vm = _
  split
  · rfl
  · rfl

theorem setPc_eq {vm : Vm} (h : 0 < vm.config.pcBits) (target : Bits) :
    setPc target vm = .ok () { vm with pc := target.setWidth vm.config.pcBits h } := by
  rw [setPc_eq_dite, dif_pos h]

theorem jump_eq {vm : Vm} (h : 0 < vm.config.pcBits) (target : Bits) :
    jump target vm = .ok () { vm with pc := target.setWidth vm.config.pcBits h, jumped := true } :=
  bind_of_ok (setPc_eq h target)

theorem jump_eq_dite (target : Bits) (vm : Vm) :
    jump target vm = if h : 0 < vm.config.pcBits then
        .ok () { vm with pc := target.setWidth vm.config.pcBits h, jumped := true }
      else .error (.fault .zeroWidth) vm := by
  have hset := setPc_eq_dite target vm
  split
  · exact jump_eq ‹_› target
  · rw [dif_neg ‹_›] at hset
    exact bind_of_error hset

theorem advance_eq_dite (size : Nat) (vm : Vm) :
    advance size vm = if vm.jumped then .ok () vm
      else if h : 0 < vm.config.pcBits then
        match vm.pc.add (.ofNat vm.config.pcBits size h) with
        | .ok pc => .ok () { vm with pc }
        | .error f => .error (.fault f) vm
      else .error (.fault .zeroWidth) vm := by
  show (if !vm.jumped then
      if h : 0 < vm.config.pcBits then do
        let pc ← (Failure.ofFault (vm.pc.add (.ofNat vm.config.pcBits size h)) : VmM Bits)
        set { vm with pc }
      else throw (.fault .zeroWidth)
    else pure () : VmM Unit) vm = _
  cases vm.jumped with
  | true => rfl
  | false =>
    by_cases h : 0 < vm.config.pcBits
    · simp only [Bool.not_false, if_true, dif_pos h, Bool.false_eq_true, if_false]
      cases vm.pc.add (.ofNat vm.config.pcBits size h) <;> rfl
    · simp only [Bool.not_false, if_true, dif_neg h, Bool.false_eq_true, if_false]
      rfl

theorem advance_eq {vm : Vm} (h : 0 < vm.config.pcBits) (hw : vm.pc.width = vm.config.pcBits) (size : Nat) :
    advance size vm = .ok () (if vm.jumped then vm
      else { vm with pc := vm.pc + .ofNat vm.config.pcBits size h }) := by
  have hadd : vm.pc.add (.ofNat vm.config.pcBits size h) = .ok (vm.pc + .ofNat vm.config.pcBits size h) := by
    rw [Bits.add, Bits.sameWidth, if_pos]
    exact hw
  rw [advance_eq_dite, dif_pos h, hadd]
  split
  · rfl
  · rfl

end Vm
end SuperH
