import SuperH.Proofs.Vm.ProgramCounter

/-!
# Effects that do not jump

* `Effect.Straight`, `Lifted.Straight` : no way through the effect, or through what an instruction means, jumps;
* `Machine.exec_straight`, `Machine.step_straight` : such an effect leaves the mark of a jump unset, and after such an
  instruction it is unset.
-/

namespace SuperH

/-! ## Trees -/

mutual

/-- No way through the effect jumps. -/
def Effect.Straight : Effect → Prop
  | .nop | .empty | .raise _ | .set _ _ | .store _ _ => True
  | .seq es => Effect.AllStraight es
  | .branch _ t e => t.Straight ∧ e.Straight
  | .jmp _ => False

/-- None of the effects jumps. -/
def Effect.AllStraight : List Effect → Prop
  | [] => True
  | e :: es => e.Straight ∧ Effect.AllStraight es

end

/-- What an instruction means is an effect that does not jump, or an exception. -/
def Lifted.Straight : Lifted → Prop
  | .effect e => e.Straight
  | .exception _ => True

namespace Effect

@[simp] theorem straight_nop : Effect.nop.Straight := trivial
@[simp] theorem straight_empty : Effect.empty.Straight := trivial
@[simp] theorem straight_set {v : Var} {e : Expr} : (Effect.set v e).Straight := trivial
@[simp] theorem straight_store {a e : Expr} : (Effect.store a e).Straight := trivial
@[simp] theorem straight_branch {c : Expr} {t e : Effect} : (Effect.branch c t e).Straight ↔ t.Straight ∧ e.Straight := Iff.rfl

theorem allStraight_iff {es : List Effect} : AllStraight es ↔ ∀ e ∈ es, e.Straight := by
  induction es with
  | nil => simp [AllStraight]
  | cons e es ih => simp [AllStraight, ih]

theorem allStraight_parts {e : Effect} : AllStraight e.parts ↔ e.Straight := by
  cases e <;> simp [parts, AllStraight, Straight]

@[simp] theorem straight_sequence {es : List Effect} : (sequence es).Straight ↔ ∀ e ∈ es, e.Straight := by
  show AllStraight (es.flatMap parts) ↔ _
  simp only [allStraight_iff, List.forall_mem_flatMap]
  exact forall₂_congr fun e _ => allStraight_iff.symm.trans allStraight_parts

end Effect

/-! ## Runs -/

/-- The instruction has not jumped so far. -/
def Vm.Unjumped (vm : Vm) : Prop := vm.jumped = false

namespace Vm

theorem assign_unjumped (v : Var) (value : Value) : Keeps Unjumped (assign v value) := by
  intro vm hvm
  obtain ⟨scope, name⟩ := v
  cases scope with
  | temp => exact hvm
  | global =>
    show Satisfies _ _ (setGlobal name value vm)
    rw [setGlobal_eq]
    cases vm.get? name with
    | none => exact hvm
    | some old =>
      dsimp only
      cases old.checkSort value <;> exact hvm

theorem advance_unjumped (size : Nat) : Keeps Unjumped (advance size) := by
  intro vm hvm
  rw [advance_eq_dite]
  split
  · exact hvm
  split
  · split <;> exact hvm
  · exact hvm

end Vm

namespace Machine

variable {σ : Type} [Bus σ]

mutual

/-- Without a jump in it, an effect leaves the instruction as one that has not jumped. -/
theorem exec_straight : ∀ {e : Effect}, e.Straight → Keeps (fun m : Machine σ => m.vm.Unjumped) (exec e)
  | .nop, _ | .empty, _ => Keeps.pure
  | .set v e, _ => Keeps.bind (value_keeps e) fun x => Keeps.onVm fun _ => Vm.assign_unjumped v x
  | .store _ e, _ => Keeps.bind Keeps.onBus fun _ => Keeps.bind (value_keeps e) fun _ => Keeps.onBus
  | .seq _, h => execAll_straight h
  | .branch c _ _, ⟨ht, he⟩ => Keeps.bind (value_keeps c) fun _ => Keeps.bind Keeps.ofError fun _ =>
      Keeps.ite (exec_straight ht) (exec_straight he)
  | .raise _, _ => Keeps.onVm fun _ => Keeps.modify fun _ h => h

theorem execAll_straight : ∀ {es : List Effect}, Effect.AllStraight es →
    Keeps (fun m : Machine σ => m.vm.Unjumped) (execAll es)
  | [], _ => Keeps.pure
  | _ :: _, hes => Keeps.bind (exec_straight hes.1) fun _ => execAll_straight hes.2

end

/-- An instruction that does not jump moves the program counter by its size. -/
theorem step_straight {lifted : Lifted} (h : lifted.Straight) {size : Nat} {m m' : Machine σ}
    (hw : m.vm.pc.width = m.vm.config.pcBits) (hstep : step lifted size m = .ok () m') :
    m'.vm.pc.toNat = (m.vm.pc.toNat + size) % 2 ^ m.vm.config.pcBits := by
  have hbegin : Meets (fun _ => True) (onVm Vm.begin : SuperH.Run σ Unit) (fun _ n => n.vm.Unjumped) (fun _ _ => True) :=
    fun _ _ => rfl
  have hrest {x : SuperH.Run σ Unit} (hx : Keeps (fun n => n.vm.Unjumped) x) :
      Meets (fun n => n.vm.Unjumped) (x >>= fun _ => onVm (Vm.advance size)) (fun _ n => n.vm.Unjumped) (fun _ _ => True) :=
    (hx.bind fun _ => Keeps.onVm fun _ => Vm.advance_unjumped size).mono (fun _ h => h) (fun _ _ h => h) fun _ _ _ => trivial
  have hmeets : Meets (fun _ => True) (step lifted size : SuperH.Run σ Unit) (fun _ n => n.vm.Unjumped) (fun _ _ => True) := by
    cases lifted with
    | effect e => exact hbegin.bind fun _ => hrest (exec_straight h)
    | exception name => exact hbegin.bind fun _ => hrest (Keeps.onVm fun _ => Keeps.modify fun _ h => h)
  have hover := hmeets m trivial
  rw [hstep] at hover
  exact step_advances hw hstep hover

end Machine
end SuperH
