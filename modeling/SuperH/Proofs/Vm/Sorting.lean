import SuperH.Proofs.Vm.Sort

/-!
# Well-sorted trees

A sorting gives each variable a sort. An expression is checked against it and against the list of instruction variables
that have been assigned before.

* `Expr.sort?` : the sort of an expression, if its parts fit together;
* `Effect.Sorted`, `Effect.assigned` : an effect whose parts fit together, and the instruction variables that it
  assigns on every way through;
* `Effect.sorted_sequence`, `Effect.assigned_sequence` : a flattened sequence is checked part by part.
-/

namespace SuperH

/-- The sort of every variable. -/
structure Sorting where
  /-- the variables of the machine -/
  globals : String → Option ValueSort
  /-- the variables of the instruction -/
  temps : String → Option ValueSort

namespace Sorting

/-- The sort that a variable has whenever it has a value. -/
def declared (Γ : Sorting) (v : Var) : Option ValueSort :=
  match v.scope with
  | .global => Γ.globals v.name
  | .temp => Γ.temps v.name

/-- The sort of a variable that is certain to have a value, when the instruction variables of the list have one. -/
def var (Γ : Sorting) (assigned : List String) (v : Var) : Option ValueSort :=
  match v.scope with
  | .global => Γ.globals v.name
  | .temp => if v.name ∈ assigned then Γ.temps v.name else none

theorem var_temp_eq_some {Γ : Sorting} {assigned : List String} {name : String} {s : ValueSort} :
    Γ.var assigned ⟨.temp, name⟩ = some s ↔ name ∈ assigned ∧ Γ.temps name = some s := by
  show (if name ∈ assigned then Γ.temps name else none) = some s ↔ _
  split <;> simp [*]

end Sorting

/-- The sort of both, if they are bit-vectors of one width. -/
def ValueSort.common : Option ValueSort → Option ValueSort → Option ValueSort
  | some (.bits v), some (.bits w) => if v = w then some (.bits v) else none
  | _, _ => none

/-- The sort, if it is that of bit-vectors. -/
def ValueSort.vector : Option ValueSort → Option ValueSort
  | some (.bits w) => some (.bits w)
  | _ => none

/-- The sort of an expression in which everything fits together. -/
def Expr.sort? (Γ : Sorting) (assigned : List String) : Expr → Option ValueSort
  | .bool _ => some .bool
  | .bits v => some (.bits v.width)
  | .var v => Γ.var assigned v
  | .ite c t e =>
    if c.sort? Γ assigned = some .bool ∧ t.sort? Γ assigned = e.sort? Γ assigned then t.sort? Γ assigned else none
  | .not x => if x.sort? Γ assigned = some .bool then some .bool else none
  | .logic _ x y =>
    if x.sort? Γ assigned = some .bool ∧ y.sort? Γ assigned = some .bool then some .bool else none
  | .msb x | .lsb x | .isZero x => (ValueSort.vector (x.sort? Γ assigned)).map fun _ => .bool
  | .cmp .eq x y =>
    if x.sort? Γ assigned = y.sort? Γ assigned then (x.sort? Γ assigned).map fun _ => .bool else none
  | .cmp _ x y => (ValueSort.common (x.sort? Γ assigned) (y.sort? Γ assigned)).map fun _ => .bool
  | .arith _ x y => ValueSort.common (x.sort? Γ assigned) (y.sort? Γ assigned)
  | .neg x | .complement x => ValueSort.vector (x.sort? Γ assigned)
  | .shift _ x amount => (amount.sort? Γ assigned).bind fun _ => ValueSort.vector (x.sort? Γ assigned)
  | .cast _ width x => if 0 < width then (x.sort? Γ assigned).map fun _ => .bits width else none
  | .loadBits n addr =>
    if n.toNat ≠ 0 ∧ n.toNat % 8 = 0 ∧ addr.sort? Γ assigned = some (.bits 32) then some (.bits n.toNat) else none

mutual

/-- The instruction variables that an effect assigns on every way through it. -/
def Effect.assigned : Effect → List String
  | .set ⟨.temp, name⟩ _ => [name]
  | .seq es => Effect.allAssigned es
  | .branch _ t e => t.assigned.filter (· ∈ e.assigned)
  | _ => []

/-- The instruction variables that effects assign one after the other. -/
def Effect.allAssigned : List Effect → List String
  | [] => []
  | e :: es => Effect.allAssigned es ++ e.assigned

end

mutual

/-- The effect assigns values of the right sort and stores whole bytes at addresses. -/
def Effect.Sorted (Γ : Sorting) (assigned : List String) : Effect → Prop
  | .nop | .empty | .raise _ => True
  | .set v e => ∃ s, e.sort? Γ assigned = some s ∧ Γ.declared v = some s
  | .store a e => a.sort? Γ assigned = some (.bits 32) ∧ ∃ w, e.sort? Γ assigned = some (.bits w) ∧ w % 8 = 0
  | .seq es => Effect.AllSorted Γ assigned es
  | .branch c t e => c.sort? Γ assigned = some .bool ∧ t.Sorted Γ assigned ∧ e.Sorted Γ assigned
  | .jmp target => ∃ s, target.sort? Γ assigned = some s

/-- Each effect is sorted, given what those before it assign. -/
def Effect.AllSorted (Γ : Sorting) (assigned : List String) : List Effect → Prop
  | [] => True
  | e :: es => e.Sorted Γ assigned ∧ Effect.AllSorted Γ (e.assigned ++ assigned) es

end

namespace ValueSort

theorem common_eq_some {a b : Option ValueSort} {s : ValueSort} (h : common a b = some s) :
    ∃ w, a = some (.bits w) ∧ b = some (.bits w) ∧ s = .bits w := by
  unfold common at h
  split at h
  · split at h
    · cases h
      subst ‹_ = _›
      exact ⟨_, rfl, rfl, rfl⟩
    · cases h
  · cases h

@[simp] theorem vector_bits (w : Nat) : vector (some (.bits w)) = some (.bits w) := rfl

@[simp] theorem common_self (w : Nat) : common (some (.bits w)) (some (.bits w)) = some (.bits w) := if_pos rfl

theorem vector_eq_some {a : Option ValueSort} {s : ValueSort} (h : vector a = some s) :
    ∃ w, a = some (.bits w) ∧ s = .bits w := by
  unfold vector at h
  split at h
  · cases h
    exact ⟨_, rfl, rfl⟩
  · cases h

end ValueSort

/-- All comparisons but equality are checked alike. -/
theorem Expr.sort?_cmp {op : CmpOp} (hop : op ≠ .eq) (Γ : Sorting) (assigned : List String) (x y : Expr) :
    (cmp op x y).sort? Γ assigned =
      (ValueSort.common (x.sort? Γ assigned) (y.sort? Γ assigned)).map fun _ => .bool := by
  cases op <;> first | exact absurd rfl hop | rfl

/-- A number of bits that 32 bits hold is what a load has. -/
theorem Expr.sort?_load {Γ : Sorting} {assigned : List String} {bits : Nat} {a : Expr} (h₀ : bits ≠ 0) (h₈ : bits % 8 = 0)
    (hlt : bits < 2 ^ 32) (ha : a.sort? Γ assigned = some (.bits 32)) :
    (Expr.load bits a).sort? Γ assigned = some (.bits bits) := by
  have hsize : (BitVec.ofNat 32 bits).toNat = bits := Nat.mod_eq_of_lt hlt
  rw [load, sort?, hsize, if_pos ⟨h₀, h₈, ha⟩]

/-! ## More assigned variables -/

namespace Expr

variable {Γ : Sorting} {fewer assigned : List String}

/-- An expression keeps its sort when more instruction variables are assigned. -/
theorem sort?_mono (hsub : ∀ n ∈ fewer, n ∈ assigned) {e : Expr} {s : ValueSort} (h : e.sort? Γ fewer = some s) :
    e.sort? Γ assigned = some s := by
  induction e generalizing s with
  | bool b | bits v => exact h
  | var v =>
    obtain ⟨scope, name⟩ := v
    cases scope with
    | global => exact h
    | temp =>
      obtain ⟨hn, hs⟩ := Sorting.var_temp_eq_some.1 h
      exact Sorting.var_temp_eq_some.2 ⟨hsub name hn, hs⟩
  | ite c t e ihc iht ihe =>
    rw [sort?, Option.ite_none_right_eq_some] at h
    obtain ⟨⟨hc, hte⟩, ht⟩ := h
    rw [sort?, ihc hc, iht ht, ihe (hte ▸ ht), if_pos ⟨rfl, rfl⟩]
  | not x ih =>
    rw [sort?, Option.ite_none_right_eq_some] at h
    rw [sort?, ih h.1, if_pos rfl, h.2]
  | logic op x y ihx ihy =>
    rw [sort?, Option.ite_none_right_eq_some] at h
    rw [sort?, ihx h.1.1, ihy h.1.2, if_pos ⟨rfl, rfl⟩, h.2]
  | msb x ih | lsb x ih | isZero x ih =>
    obtain ⟨t, ht, hs⟩ := Option.map_eq_some_iff.1 h
    obtain ⟨w, hx, rfl⟩ := ValueSort.vector_eq_some ht
    rw [sort?, ih hx, ← hs]
    rfl
  | cmp op x y ihx ihy =>
    by_cases hop : op = .eq
    · subst hop
      rw [sort?, Option.ite_none_right_eq_some] at h
      obtain ⟨hxy, h⟩ := h
      obtain ⟨t, ht, hs⟩ := Option.map_eq_some_iff.1 h
      rw [sort?, ihx ht, ihy (hxy ▸ ht), if_pos rfl, Option.map_some, hs]
    · rw [sort?_cmp hop] at h
      obtain ⟨t, ht, hs⟩ := Option.map_eq_some_iff.1 h
      obtain ⟨w, hx, hy, rfl⟩ := ValueSort.common_eq_some ht
      rw [sort?_cmp hop, ihx hx, ihy hy, ValueSort.common_self, Option.map_some, hs]
  | arith op x y ihx ihy =>
    obtain ⟨w, hx, hy, rfl⟩ := ValueSort.common_eq_some h
    rw [sort?, ihx hx, ihy hy, ValueSort.common_self]
  | neg x ih | complement x ih =>
    obtain ⟨w, hx, rfl⟩ := ValueSort.vector_eq_some h
    rw [sort?, ih hx]
    rfl
  | shift op x n ihx ihn =>
    obtain ⟨t, hn, hx⟩ := Option.bind_eq_some_iff.1 h
    obtain ⟨w, hx', rfl⟩ := ValueSort.vector_eq_some hx
    rw [sort?, ihn hn, ihx hx']
    rfl
  | cast signed width x ih =>
    rw [sort?, Option.ite_none_right_eq_some] at h
    obtain ⟨t, ht, hs⟩ := Option.map_eq_some_iff.1 h.2
    rw [sort?, if_pos h.1, ih ht, Option.map_some, hs]
  | loadBits n a ih =>
    rw [sort?, Option.ite_none_right_eq_some] at h
    obtain ⟨⟨h₀, h₈, ha⟩, hs⟩ := h
    rw [sort?, ih ha, if_pos ⟨h₀, h₈, rfl⟩, hs]

end Expr

namespace Effect

variable {Γ : Sorting} {assigned : List String}

/-! ## Sequences -/

theorem allAssigned_append (es fs : List Effect) : allAssigned (es ++ fs) = allAssigned fs ++ allAssigned es := by
  induction es with
  | nil => exact (List.append_nil _).symm
  | cons e es ih => rw [List.cons_append, allAssigned, allAssigned, ih, List.append_assoc]

theorem allSorted_append {es fs : List Effect} :
    AllSorted Γ assigned (es ++ fs) ↔ AllSorted Γ assigned es ∧ AllSorted Γ (allAssigned es ++ assigned) fs := by
  induction es generalizing assigned with
  | nil => simp [AllSorted, allAssigned]
  | cons e es ih => simp only [List.cons_append, AllSorted, allAssigned, ih, and_assoc, List.append_assoc]

theorem allAssigned_parts (e : Effect) : allAssigned e.parts = e.assigned := by
  cases e <;> simp only [parts, allAssigned, Effect.assigned, List.nil_append]

theorem allSorted_parts {e : Effect} : AllSorted Γ assigned e.parts ↔ e.Sorted Γ assigned := by
  cases e <;> simp only [parts, AllSorted, Effect.Sorted, and_true]

theorem assigned_sequence (es : List Effect) : (sequence es).assigned = allAssigned es := by
  rw [sequence, Effect.assigned]
  induction es with
  | nil => rfl
  | cons e es ih => rw [List.flatMap_cons, allAssigned_append, ih, allAssigned_parts, allAssigned]

theorem sorted_sequence {es : List Effect} : (sequence es).Sorted Γ assigned ↔ AllSorted Γ assigned es := by
  rw [sequence, Effect.Sorted]
  induction es generalizing assigned with
  | nil => exact Iff.rfl
  | cons e es ih => rw [List.flatMap_cons, allSorted_append, allSorted_parts, allAssigned_parts, ih, AllSorted]

end Effect
end SuperH
