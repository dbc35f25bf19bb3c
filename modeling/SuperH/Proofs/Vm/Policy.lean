import SuperH.Proofs.Bits.Value
import SuperH.Proofs.Run.Contract
import SuperH.Proofs.Vm.Sort

/-!
# Policies

A policy says which global variables a tree may touch, which conditions are known to be false, and whether the tree
may raise.

* `Expr.Within`, `Effect.Within` : a tree keeps to a policy; the side of a branch that is known not to be taken is free;
* `Policy.any`, `Policy.quiet` : no restriction, and none but that nothing is raised;
* `Policy.Closed`, `Policy.Stable` : a property of the interpreter's state that no single change of an effect, or of an
  instruction, within the policy can break; `Policy.Refutes` : the conditions of the policy are false under it;
* `exec_keeps`, `step_keeps` : a run within the policy keeps what is closed or stable, also when it fails halfway.
-/

namespace SuperH

/-- What a tree may do. -/
structure Policy where
  /-- the global variables that may be read and written -/
  vars : String → Prop
  /-- conditions that are known to be false -/
  off : Expr → Prop
  /-- exceptions may be raised -/
  raises : Prop

namespace Policy

/-- Every tree keeps to it. -/
def any : Policy := ⟨fun _ => True, fun _ => False, True⟩

/-- Every tree that raises nothing keeps to it. -/
def quiet : Policy := ⟨fun _ => True, fun _ => False, False⟩

end Policy

/-! ## Trees within a policy -/

/-- The variable may be touched. -/
def Var.Within (π : Policy) (v : Var) : Prop := v.scope = .global → π.vars v.name

/-- The expression keeps to the policy. -/
def Expr.Within (π : Policy) : Expr → Prop
  | .bool _ | .bits _ => True
  | .var v => v.Within π
  | .ite c t e => (π.off c ∨ c.Within π ∧ t.Within π) ∧ e.Within π
  | .not x | .msb x | .lsb x | .isZero x | .neg x | .complement x | .cast _ _ x | .loadBits _ x => x.Within π
  | .logic _ x y | .cmp _ x y | .arith _ x y | .shift _ x y => x.Within π ∧ y.Within π

mutual

/-- The effect keeps to the policy. -/
def Effect.Within (π : Policy) : Effect → Prop
  | .nop | .empty => True
  | .set v e => v.Within π ∧ e.Within π
  | .store a e => a.Within π ∧ e.Within π
  | .seq es => Effect.AllWithin π es
  | .branch c t e => (π.off c ∨ c.Within π ∧ t.Within π) ∧ e.Within π
  | .jmp target => target.Within π
  | .raise _ => π.raises

/-- Every effect of the list keeps to the policy. -/
def Effect.AllWithin (π : Policy) : List Effect → Prop
  | [] => True
  | e :: es => e.Within π ∧ Effect.AllWithin π es

end

/-- What an instruction means keeps to the policy. -/
def Lifted.Within (π : Policy) : Lifted → Prop
  | .effect e => e.Within π
  | .exception _ => π.raises

variable {π : Policy}

-- the builders of trees are read through, down to the constructors
attribute [simp] Expr.const Expr.signedConst Expr.global Expr.temp Expr.and Expr.or Expr.xor Expr.nonZero Expr.eq
  Expr.ult Expr.ugt Expr.uge Expr.sgt Expr.sge Expr.add Expr.sub Expr.mul Expr.bitAnd Expr.bitOr Expr.bitXor Expr.shl
  Expr.shr Expr.sar Expr.unsigned Expr.signed Expr.load Effect.setGlobal Effect.setTemp

attribute [simp] Var.Within Expr.Within

@[simp] theorem Effect.within_nop : Effect.nop.Within π := trivial
@[simp] theorem Effect.within_empty : Effect.empty.Within π := trivial
@[simp] theorem Effect.within_set {v : Var} {e : Expr} : (Effect.set v e).Within π ↔ v.Within π ∧ e.Within π := Iff.rfl
@[simp] theorem Effect.within_store {a e : Expr} : (Effect.store a e).Within π ↔ a.Within π ∧ e.Within π := Iff.rfl
@[simp] theorem Effect.within_jmp {e : Expr} : (Effect.jmp e).Within π ↔ e.Within π := Iff.rfl
@[simp] theorem Effect.within_branch {c : Expr} {t e : Effect} :
    (Effect.branch c t e).Within π ↔ (π.off c ∨ c.Within π ∧ t.Within π) ∧ e.Within π := Iff.rfl

theorem Effect.allWithin_iff {es : List Effect} : Effect.AllWithin π es ↔ ∀ e ∈ es, e.Within π := by
  induction es with
  | nil => simp [AllWithin]
  | cons e es ih => simp [AllWithin, ih]

theorem Effect.allWithin_parts {e : Effect} : Effect.AllWithin π e.parts ↔ e.Within π := by
  cases e <;> simp [parts, AllWithin, Effect.Within]

@[simp] theorem Effect.within_sequence {es : List Effect} : (sequence es).Within π ↔ ∀ e ∈ es, e.Within π := by
  have h : ∀ e : Effect, (∀ p ∈ e.parts, p.Within π) ↔ e.Within π := fun e =>
    allWithin_iff.symm.trans allWithin_parts
  simp only [sequence, Effect.Within, allWithin_iff, List.mem_flatMap]
  constructor
  · intro hes e he
    exact (h e).1 fun p hp => hes p ⟨e, he, hp⟩
  · rintro hes p ⟨e, he, hp⟩
    exact (h e).2 (hes e he) p hp

/-! ## Nothing is outside of the widest policy -/

theorem Expr.within_any (e : Expr) : e.Within .any := by
  induction e with
  | bool | bits => trivial
  | var v => exact fun _ => trivial
  | ite c t e hc ht he => exact ⟨Or.inr ⟨hc, ht⟩, he⟩
  | not x hx | msb x hx | lsb x hx | isZero x hx | neg x hx | complement x hx => exact hx
  | cast signed width x hx => exact hx
  | loadBits bits x hx => exact hx
  | logic op x y hx hy | cmp op x y hx hy | arith op x y hx hy | shift op x y hx hy => exact ⟨hx, hy⟩

mutual

theorem Effect.within_any : ∀ e : Effect, e.Within .any
  | .nop | .empty => trivial
  | .set _ e => ⟨fun _ => trivial, e.within_any⟩
  | .store a e => ⟨a.within_any, e.within_any⟩
  | .seq es => Effect.allWithin_any es
  | .branch c t e => ⟨Or.inr ⟨c.within_any, Effect.within_any t⟩, Effect.within_any e⟩
  | .jmp target => target.within_any
  | .raise _ => trivial

theorem Effect.allWithin_any : ∀ es : List Effect, Effect.AllWithin .any es
  | [] => trivial
  | e :: es => ⟨Effect.within_any e, Effect.allWithin_any es⟩

end

theorem Lifted.within_any (lifted : Lifted) : lifted.Within .any := by
  cases lifted with
  | effect e => exact e.within_any
  | exception name => trivial

/-! ## Stable properties -/

/-- A property of the interpreter's state that no assignment, jump or exception within the policy can break. A jump is
one change here: it sets the program counter and says so. -/
structure Policy.Closed (π : Policy) (p : Vm → Prop) : Prop where
  global : ∀ {vm name old value}, π.vars name → vm.get? name = some old → old.sort = value.sort → p vm →
    p (vm.replace name value)
  temp : ∀ {vm name value}, p vm → p { vm with temps := (name, value) :: vm.temps }
  jump : ∀ {vm} {target : Bits} (h : 0 < vm.config.pcBits), p vm →
    p { vm with pc := target.setWidth vm.config.pcBits h, jumped := true }
  raise : ∀ {vm name}, π.raises → p vm → p { vm with events := vm.events ++ [name] }

/-- A property of the interpreter's state that neither the begin of an instruction nor one assignment, jump or
exception within the policy can break. -/
structure Policy.Stable (π : Policy) (p : Vm → Prop) : Prop where
  start : ∀ {vm}, p vm → p { vm with temps := [], jumped := false }
  global : ∀ {vm name old value}, π.vars name → vm.get? name = some old → old.sort = value.sort → p vm →
    p (vm.replace name value)
  temp : ∀ {vm name value}, p vm → p { vm with temps := (name, value) :: vm.temps }
  pc : ∀ {vm} {target : Bits} (h : 0 < vm.config.pcBits), p vm → p { vm with pc := target.setWidth vm.config.pcBits h }
  jumped : ∀ {vm}, p vm → p { vm with jumped := true }
  raise : ∀ {vm name}, π.raises → p vm → p { vm with events := vm.events ++ [name] }

theorem Policy.Stable.closed {p : Vm → Prop} (h : π.Stable p) : π.Closed p where
  global := h.global
  temp := h.temp
  jump hpos hp := h.jumped (h.pc hpos hp)
  raise := h.raise

variable {σ : Type} [Bus σ]

/-- The conditions of the policy are false wherever the property holds. -/
def Policy.Refutes (σ : Type) [Bus σ] (π : Policy) (p : Vm → Prop) : Prop :=
  ∀ c vm, π.off c → p vm → (vm.eval c : Eval σ Value) = pure (.bool false)

theorem Policy.quiet_refutes {p : Vm → Prop} : Policy.quiet.Refutes σ p := fun _ _ hoff => False.elim hoff

theorem Policy.any_refutes {p : Vm → Prop} : Policy.any.Refutes σ p := fun _ _ hoff => False.elim hoff

variable {p : Vm → Prop}

theorem Vm.assign_keeps (h : π.Closed p) {v : Var} (hv : v.Within π) (value : Value) : Keeps p (Vm.assign v value) := by
  intro vm hp
  obtain ⟨scope, name⟩ := v
  cases scope with
  | temp => exact h.temp hp
  | global =>
    show Satisfies _ _ (setGlobal name value vm)
    rw [setGlobal_eq]
    cases hget : vm.get? name with
    | none => exact hp
    | some old =>
      dsimp only
      cases hs : old.checkSort value with
      | ok u => exact h.global (hv rfl) hget (Value.checkSort_eq_ok.1 hs) hp
      | error e => exact hp

theorem Vm.jump_keeps (h : π.Closed p) (target : Bits) : Keeps p (Vm.jump target) := by
  intro vm hp
  rw [jump_eq_dite]
  split
  · exact h.jump ‹_› hp
  · exact hp

theorem Vm.advance_keeps (h : π.Stable p) (size : Nat) : Keeps p (Vm.advance size) := by
  intro vm hp
  rw [advance_eq_dite]
  split
  · exact hp
  split
  · rename_i hpos
    cases hadd : vm.pc.add (.ofNat vm.config.pcBits size hpos) with
    | ok pc =>
      have hw : pc.width = vm.config.pcBits := Bits.width_of_add hadd
      have hpc : pc.setWidth vm.config.pcBits hpos = pc := by
        refine Bits.ext_toNat hw.symm ?_
        rw [Bits.toNat_setWidth, ← hw, Nat.mod_eq_of_lt pc.toNat_lt]
      show p { vm with pc }
      rw [← hpc]
      exact h.pc hpos hp
    | error f => exact hp
  · exact hp

theorem Machine.value_keeps {p : Vm → Prop} (e : Expr) : Keeps (fun m => p m.vm) (Machine.value e : SuperH.Run σ Value) :=
  Keeps.onBus

theorem Machine.value_off (hoff : π.Refutes σ p) {c : Expr} (hc : π.off c) :
    Meets (fun m => p m.vm) (Machine.value c : SuperH.Run σ Value) (fun v m => v = .bool false ∧ p m.vm)
      (fun _ m => p m.vm) := by
  refine Meets.onBus fun vm bus hp => ?_
  rw [hoff c vm hc hp]
  exact ⟨rfl, hp⟩

mutual

/-- A run within the policy keeps every closed property, whatever its outcome. -/
theorem Machine.exec_keeps (hoff : π.Refutes σ p) (h : π.Closed p) : ∀ {e : Effect}, e.Within π →
    Keeps (fun m : Machine σ => p m.vm) (Machine.exec e)
  | .nop, _ | .empty, _ => Keeps.pure
  | .set v e, he => Keeps.bind (value_keeps e) fun x => Keeps.onVm fun _ => Vm.assign_keeps h he.1 x
  | .store a e, _ => Keeps.bind Keeps.onBus fun _ => Keeps.bind (value_keeps e) fun _ => Keeps.onBus
  | .seq es, he => execAll_keeps hoff h he
  | .branch c t e, ⟨.inl hc, he⟩ => by
    -- the condition is false, so the first side is not run and need not keep to the policy
    refine Meets.bind (value_off hoff hc) fun x => ?_
    intro m ⟨hx, hp⟩
    subst hx
    exact exec_keeps hoff h he m hp
  | .branch c t e, ⟨.inr ⟨_, ht⟩, he⟩ => Keeps.bind (value_keeps c) fun _ => Keeps.bind Keeps.ofError fun _ =>
      Keeps.ite (exec_keeps hoff h ht) (exec_keeps hoff h he)
  | .jmp target, _ => Keeps.bind (value_keeps target) fun x => Keeps.onVm fun _ => Vm.jump_keeps h x.toBits
  | .raise name, he => Keeps.onVm fun _ => Keeps.modify fun _ => h.raise he

theorem Machine.execAll_keeps (hoff : π.Refutes σ p) (h : π.Closed p) : ∀ {es : List Effect}, Effect.AllWithin π es →
    Keeps (fun m : Machine σ => p m.vm) (Machine.execAll es)
  | [], _ => Keeps.pure
  | _ :: _, hes => Keeps.bind (exec_keeps hoff h hes.1) fun _ => execAll_keeps hoff h hes.2

end

/-- A stable property survives an instruction whose effect keeps to the policy, also one that fails halfway. -/
theorem Machine.step_effect_keeps (hoff : π.Refutes σ p) (h : π.Stable p) {e : Effect} (he : e.Within π) (size : Nat) :
    Keeps (fun m : Machine σ => p m.vm) (step (.effect e) size) :=
  Keeps.bind (Keeps.onVm fun _ _ => h.start) fun _ => Keeps.bind (exec_keeps hoff h.closed he) fun _ =>
    Keeps.onVm fun _ => Vm.advance_keeps h size

/-- The same of whatever an instruction means, an effect or an exception. -/
theorem Machine.step_keeps (hoff : π.Refutes σ p) (h : π.Stable p) {lifted : Lifted} (hl : lifted.Within π) (size : Nat) :
    Keeps (fun m : Machine σ => p m.vm) (step lifted size) := by
  cases lifted with
  | effect e => exact step_effect_keeps hoff h hl size
  | exception name =>
    refine Keeps.bind (Keeps.onVm fun _ _ => h.start) fun _ => ?_
    refine Keeps.bind (Keeps.onVm fun _ => Keeps.modify fun _ => h.raise hl) fun _ => ?_
    exact Keeps.onVm fun _ => Vm.advance_keeps h size

end SuperH
