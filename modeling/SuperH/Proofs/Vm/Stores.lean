import Mathlib.Tactic.Tauto
import SuperH.Proofs.Vm.Linear
import SuperH.Proofs.Vm.Policy

/-!
# Effects that store once

* `Effect.SetsOnly` : an effect that stores nothing;
* `Effect.StoresOnce` : an effect that stores at most once on every way through;
* `Machine.KeepsMemory`, `Machine.WritesOnce` : a run that leaves a linear memory alone, or that writes one store to it,
  which may be cut short;
* `exec_setsOnly`, `exec_storesOnce`, `step_storesOnce` : what effects of either form do.
-/

namespace SuperH

variable {loads : Bool}

/-! ## Trees -/

mutual

/-- The effect stores nothing, and loads only if `loads` is set. -/
def Effect.SetsOnly (loads : Bool) : Effect → Prop
  | .nop | .empty | .raise _ => True
  | .set _ e | .jmp e => e.LoadsOnlyIf loads
  | .store _ _ => False
  | .seq es => Effect.AllSetOnly loads es
  | .branch c t e => c.LoadsOnlyIf loads ∧ t.SetsOnly loads ∧ e.SetsOnly loads

/-- None of the effects stores, and none loads unless `loads` is set. -/
def Effect.AllSetOnly (loads : Bool) : List Effect → Prop
  | [] => True
  | e :: es => e.SetsOnly loads ∧ Effect.AllSetOnly loads es

end

mutual

/-- Every way through the effect stores at most once, and loads after that only if `loads` is set. -/
def Effect.StoresOnce (loads : Bool) : Effect → Prop
  | .nop | .empty | .raise _ | .set _ _ | .jmp _ | .store _ _ => True
  | .seq es => Effect.AllStoreOnce loads es
  | .branch _ t e => t.StoresOnce loads ∧ e.StoresOnce loads

/-- The same of effects one after the other: the first stores nothing, or no other one does. -/
def Effect.AllStoreOnce (loads : Bool) : List Effect → Prop
  | [] => True
  | e :: es => e.SetsOnly true ∧ Effect.AllStoreOnce loads es ∨ e.StoresOnce loads ∧ Effect.AllSetOnly loads es

end

attribute [simp] Expr.LoadsOnlyIf Effect.AllSetOnly Effect.AllStoreOnce

theorem Expr.loadsOnlyIf_true (e : Expr) : e.LoadsOnlyIf true := by
  induction e with
  | bool | bits | var => trivial
  | ite c t e hc ht he => exact ⟨hc, ht, he⟩
  | not x hx | msb x hx | lsb x hx | isZero x hx | neg x hx | complement x hx | cast _ _ x hx => exact hx
  | loadBits n a ha => exact ⟨rfl, ha⟩
  | logic op x y hx hy | cmp op x y hx hy | arith op x y hx hy | shift op x y hx hy => exact ⟨hx, hy⟩

namespace Effect

@[simp] theorem setsOnly_nop : Effect.nop.SetsOnly loads := trivial
@[simp] theorem setsOnly_empty : Effect.empty.SetsOnly loads := trivial
@[simp] theorem setsOnly_set {v : Var} {e : Expr} : (Effect.set v e).SetsOnly loads ↔ e.LoadsOnlyIf loads := Iff.rfl
@[simp] theorem setsOnly_jmp {e : Expr} : (Effect.jmp e).SetsOnly loads ↔ e.LoadsOnlyIf loads := Iff.rfl
@[simp] theorem setsOnly_branch {c : Expr} {t e : Effect} :
    (Effect.branch c t e).SetsOnly loads ↔ c.LoadsOnlyIf loads ∧ t.SetsOnly loads ∧ e.SetsOnly loads := Iff.rfl
@[simp] theorem storesOnce_store {a e : Expr} : (Effect.store a e).StoresOnce loads := trivial
@[simp] theorem storesOnce_branch {c : Expr} {t e : Effect} :
    (Effect.branch c t e).StoresOnce loads ↔ t.StoresOnce loads ∧ e.StoresOnce loads := Iff.rfl

/-! ### Lists of effects -/

theorem allSetOnly_iff {es : List Effect} : AllSetOnly loads es ↔ ∀ e ∈ es, e.SetsOnly loads := by
  induction es with
  | nil => simp
  | cons e es ih => simp [ih]

theorem allSetOnly_append {es fs : List Effect} :
    AllSetOnly loads (es ++ fs) ↔ AllSetOnly loads es ∧ AllSetOnly loads fs := by
  simp only [allSetOnly_iff, List.forall_mem_append]

theorem allSetOnly_parts {e : Effect} : AllSetOnly loads e.parts ↔ e.SetsOnly loads := by
  cases e <;> simp [parts, SetsOnly]

@[simp] theorem setsOnly_sequence {es : List Effect} : (sequence es).SetsOnly loads ↔ AllSetOnly loads es := by
  show AllSetOnly loads (es.flatMap parts) ↔ _
  induction es with
  | nil => exact Iff.rfl
  | cons e es ih => rw [List.flatMap_cons, allSetOnly_append, allSetOnly_parts, ih, AllSetOnly]

mutual

theorem SetsOnly.widen : ∀ {e : Effect}, e.SetsOnly loads → e.SetsOnly true
  | .nop, _ | .empty, _ | .raise _, _ => trivial
  | .set _ e, _ | .jmp e, _ => e.loadsOnlyIf_true
  | .store _ _, h => h
  | .seq _, h => allSetOnly_widen h
  | .branch c _ _, h => ⟨c.loadsOnlyIf_true, h.2.1.widen, h.2.2.widen⟩

theorem allSetOnly_widen : ∀ {es : List Effect}, AllSetOnly loads es → AllSetOnly true es
  | [], _ => trivial
  | _ :: _, h => ⟨h.1.widen, allSetOnly_widen h.2⟩

end

mutual

theorem SetsOnly.storesOnce : ∀ {e : Effect}, e.SetsOnly true → e.StoresOnce loads
  | .nop, _ | .empty, _ | .raise _, _ | .set _ _, _ | .jmp _, _ => trivial
  | .seq _, h => allStoreOnce_of_allSetOnly h
  | .branch _ _ _, h => ⟨h.2.1.storesOnce, h.2.2.storesOnce⟩

theorem allStoreOnce_of_allSetOnly : ∀ {es : List Effect}, AllSetOnly true es → AllStoreOnce loads es
  | [], _ => trivial
  | _ :: _, h => .inl ⟨h.1, allStoreOnce_of_allSetOnly h.2⟩

end

/-- Of two lists of effects, the first stores nothing, or the second does not. -/
theorem allStoreOnce_append {es fs : List Effect} : AllStoreOnce loads (es ++ fs) ↔
    AllSetOnly true es ∧ AllStoreOnce loads fs ∨ AllStoreOnce loads es ∧ AllSetOnly loads fs := by
  induction es with
  | nil =>
    have hsets : AllSetOnly loads fs → AllStoreOnce loads fs := fun h => allStoreOnce_of_allSetOnly (allSetOnly_widen h)
    simpa using hsets
  | cons e es ih =>
    simp only [List.cons_append, AllStoreOnce, AllSetOnly, ih, allSetOnly_append]
    tauto

theorem allStoreOnce_parts {e : Effect} : AllStoreOnce loads e.parts ↔ e.StoresOnce loads := by
  have hone : AllStoreOnce loads [e] ↔ e.StoresOnce loads := by
    simpa only [AllStoreOnce, AllSetOnly, and_true, or_iff_right_iff_imp] using SetsOnly.storesOnce
  cases e with
  | seq es => exact Iff.rfl
  | _ => exact hone

@[simp] theorem storesOnce_sequence {es : List Effect} : (sequence es).StoresOnce loads ↔ AllStoreOnce loads es := by
  show AllStoreOnce loads (es.flatMap parts) ↔ _
  induction es with
  | nil => exact Iff.rfl
  | cons e es ih =>
    have hrest : AllSetOnly loads (es.flatMap parts) ↔ AllSetOnly loads es := setsOnly_sequence
    rw [List.flatMap_cons, allStoreOnce_append, allSetOnly_parts, allStoreOnce_parts, ih, hrest, AllStoreOnce]

end Effect

/-! ## Runs -/

/-- The run leaves the memory alone. It fails on the bus only if `loads` is set. -/
def Machine.KeepsMemory {α : Type} (loads : Bool) (x : Run LinearMemory α) : Prop :=
  ∀ mem, Meets (fun m => m.bus = mem) x (fun _ m => m.bus = mem) (fun f m => m.bus = mem ∧ (f.IsBus → loads = true))

/-- The run writes one store at most. After a complete store it fails on the bus only if `loads` is set. -/
def Machine.WritesOnce {α : Type} (loads : Bool) (x : Run LinearMemory α) : Prop :=
  ∀ mem, Meets (fun m => m.bus = mem) x (fun _ m => Vm.Stored mem m.bus) (fun f m => Vm.Torn loads mem f m.bus)

/-- The operation of the interpreter does not fail on the bus. -/
def Vm.OffBus {α : Type} (x : VmM α) : Prop := ∀ vm, Satisfies (fun _ _ => True) (fun f _ => ¬ f.IsBus) (x vm)

theorem Value.checkSort_ne_bus (old new : Value) (addr : Address) (cause : BusError) :
    old.checkSort new ≠ .error (.bus addr cause) := by
  unfold checkSort
  split
  · exact nofun
  · split <;> exact nofun
  · exact nofun
  · exact nofun

namespace Vm

theorem assign_offBus (v : Var) (value : Value) : OffBus (assign v value) := by
  intro vm
  obtain ⟨scope, name⟩ := v
  cases scope with
  | temp => trivial
  | global =>
    show Satisfies _ _ (setGlobal name value vm)
    rw [setGlobal_eq]
    cases vm.get? name with
    | none => exact id
    | some old =>
      dsimp only
      cases hcheck : old.checkSort value with
      | ok u => trivial
      | error e =>
        cases e with
        | bus addr cause => exact absurd hcheck (Value.checkSort_ne_bus old value addr cause)
        | _ => exact id

theorem jump_offBus (target : Bits) : OffBus (jump target) := by
  intro vm
  rw [jump_eq_dite]
  split
  · trivial
  · exact id

theorem advance_offBus (size : Nat) : OffBus (advance size) := by
  intro vm
  rw [advance_eq_dite]
  split
  · trivial
  split
  · split
    · trivial
    · exact id
  · exact id

end Vm

namespace Machine

variable {α β : Type}

namespace KeepsMemory

theorem pure {a : α} : KeepsMemory loads (Pure.pure a : Run LinearMemory α) := fun _ _ h => h

theorem bind {x : Run LinearMemory α} {f : α → Run LinearMemory β} (hx : KeepsMemory loads x)
    (hf : ∀ a, KeepsMemory loads (f a)) : KeepsMemory loads (x >>= f) := fun mem => Meets.bind (hx mem) fun a => hf a mem

theorem ofError {r : Except VmError α} (h : ∀ addr cause, r ≠ .error (.bus addr cause)) :
    KeepsMemory loads (Failure.ofError r : Run LinearMemory α) := by
  rintro mem m hm
  have hr : ReadsOnly loads (Failure.ofError r) := ReadsOnly.ofError h
  cases r with
  | ok a => exact hm
  | error e => exact ⟨hm, (hr mem).2⟩

theorem onBus {x : Vm → Eval LinearMemory α} (h : ∀ vm, ReadsOnly loads (x vm)) : KeepsMemory loads (onBus x) := by
  intro mem
  refine Meets.onBus fun vm => ?_
  rintro _ rfl
  exact h vm _

theorem onVm {x : VmM α} (h : Vm.OffBus x) : KeepsMemory loads (onVm x) := by
  intro mem
  refine Meets.onVm fun bus vm hbus => ?_
  have h := h vm
  cases hr : x vm with
  | ok a vm' => exact hbus
  | error f vm' =>
    rw [hr] at h
    exact ⟨hbus, fun hf => absurd hf h⟩

theorem value {e : Expr} (h : e.LoadsOnlyIf loads) : KeepsMemory loads (value e) := onBus fun vm => vm.eval_readsOnly h

theorem address {e : Expr} (h : e.LoadsOnlyIf loads) : KeepsMemory loads (address e) :=
  onBus fun vm => .bind_bits (vm.eval_readsOnly h) fun _ => .busAddress

/-- A truth value that decides how to go on. -/
theorem ite {x : Value} {t e : Run LinearMemory α} (ht : KeepsMemory loads t) (he : KeepsMemory loads e) :
    KeepsMemory loads (Failure.ofError x.asBool >>= fun b => if b then t else e) := by
  refine bind (ofError x.asBool_ne_bus) fun b => ?_
  cases b
  · exact he
  · exact ht

end KeepsMemory

mutual

/-- An effect that stores nothing leaves the memory alone, whatever its outcome. -/
theorem exec_setsOnly : ∀ {e : Effect}, e.SetsOnly loads → KeepsMemory loads (exec e)
  | .nop, _ | .empty, _ => .pure
  | .set v _, he => KeepsMemory.bind (.value he) fun x => .onVm (Vm.assign_offBus v x)
  | .store _ _, he => he.elim
  | .seq _, hes => execAll_setsOnly hes
  | .branch _ _ _, ⟨hc, ht, he⟩ => KeepsMemory.bind (.value hc) fun _ => .ite (exec_setsOnly ht) (exec_setsOnly he)
  | .jmp _, he => KeepsMemory.bind (.value he) fun x => .onVm (Vm.jump_offBus x.toBits)
  | .raise _, _ => .onVm fun _ => trivial

theorem execAll_setsOnly : ∀ {es : List Effect}, Effect.AllSetOnly loads es → KeepsMemory loads (execAll es)
  | [], _ => .pure
  | _ :: _, hes => KeepsMemory.bind (exec_setsOnly hes.1) fun _ => execAll_setsOnly hes.2

end

namespace WritesOnce

theorem of_keeps {x : Run LinearMemory α} (h : KeepsMemory true x) : WritesOnce loads x := fun mem =>
  (h mem).mono (fun _ h => h) (fun _ _ => .inl) fun _ _ h => .inl h.1

/-- What comes before the store. -/
theorem after {x : Run LinearMemory α} {f : α → Run LinearMemory β} (hx : KeepsMemory true x)
    (hf : ∀ a, WritesOnce loads (f a)) : WritesOnce loads (x >>= f) := fun mem =>
  Meets.bind ((hx mem).mono (fun _ h => h) (fun _ _ h => h) fun _ _ h => .inl h.1) fun a => hf a mem

/-- What comes after the store. -/
theorem before {x : Run LinearMemory α} {f : α → Run LinearMemory β} (hx : WritesOnce loads x)
    (hf : ∀ a, KeepsMemory loads (f a)) : WritesOnce loads (x >>= f) := by
  refine fun mem => Meets.bind (hx mem) fun a m hm => ?_
  have h := hf a m.bus m rfl
  cases hr : f a m with
  | ok b m' =>
    rw [hr] at h
    have hbus : m'.bus = m.bus := h
    show Vm.Stored mem m'.bus
    rwa [hbus]
  | error e m' =>
    rw [hr] at h
    obtain ⟨hbus, hfails⟩ : m'.bus = m.bus ∧ (e.IsBus → loads = true) := h
    show Vm.Torn loads mem e m'.bus
    rw [hbus]
    exact hm.torn hfails

end WritesOnce

mutual

/-- An effect that stores at most once writes one store at most, whatever its outcome. -/
theorem exec_storesOnce : ∀ {e : Effect}, e.StoresOnce loads → WritesOnce loads (exec e)
  | .nop, _ | .empty, _ => .of_keeps .pure
  | .set v e, _ => .of_keeps (exec_setsOnly (e := .set v e) e.loadsOnlyIf_true)
  | .store a e, _ => .after (.address a.loadsOnlyIf_true) fun addr => .after (.value e.loadsOnlyIf_true) fun x mem =>
      Meets.onBus fun vm => by
        rintro _ rfl
        exact Vm.store_torn vm.config addr x.toBits _
  | .seq _, hes => execAll_storesOnce hes
  | .branch c _ _, ⟨ht, he⟩ => .after (.value c.loadsOnlyIf_true) fun x => .after (.ofError x.asBool_ne_bus) fun b => by
    cases b
    · exact exec_storesOnce he
    · exact exec_storesOnce ht
  | .jmp e, _ => .of_keeps (exec_setsOnly (e := .jmp e) e.loadsOnlyIf_true)
  | .raise name, _ => .of_keeps (exec_setsOnly (e := .raise name) trivial)

theorem execAll_storesOnce : ∀ {es : List Effect}, Effect.AllStoreOnce loads es → WritesOnce loads (execAll es)
  | [], _ => .of_keeps .pure
  | _ :: _, .inl hes => .after (exec_setsOnly hes.1) fun _ => execAll_storesOnce hes.2
  | _ :: _, .inr hes => .before (exec_storesOnce hes.1) fun _ => execAll_setsOnly hes.2

end

theorem step_storesOnce {lifted : Lifted} (h : ∀ e, lifted = .effect e → e.StoresOnce loads) (size : Nat) :
    WritesOnce loads (step lifted size) := by
  refine .after (.onVm fun _ => trivial) fun _ => ?_
  cases lifted with
  | effect e => exact .before (exec_storesOnce (h e rfl)) fun _ => .onVm (Vm.advance_offBus size)
  | exception name => exact .of_keeps (KeepsMemory.bind (.onVm fun _ => trivial) fun _ => .onVm (Vm.advance_offBus size))

end Machine
end SuperH
