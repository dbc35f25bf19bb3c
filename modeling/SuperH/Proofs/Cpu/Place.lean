import SuperH.Proofs.Cpu.Slot

/-!
# The register that an index names

R0 to R7 exist twice, and the flags of a state say which copy an index names.

* `Storage.pick` : what is left of a storage when the copy is chosen, to read and to write (`Evals.of_pick`, `exec_pick`);
* `slotAt`, `State.place` : the register that an index names in a state; `place_general` and `place_saved` for the indices
  of R0 to R15 and of the registers that exist once;
* `RunsOn.setPlace` : a register is set by its index; `RunsOn.setReg` and `exec_setReg_error` for R0 to R15.
-/

namespace SuperH

namespace Cpu

open SuperH.Expr SuperH.Effect

/-! ## Choosing a copy -/

/-- The storage with the choice of a copy made. -/
def Storage.pick (bank1 rb : Bool) : Storage → Storage
  | inUse b0 b1 => .own (if bank1 then b1 else b0)
  | notInUse b0 b1 => .own (if rb then b0 else b1)
  | status => .status
  | own name => .own name

variable {x z : Frame} {e : Expr}

theorem Evals.of_pick {p : Storage} {v : Value} (h : Evals x (p.pick x.bank1 (x.flag .rb)).read v) : Evals x p.read v := by
  cases p with
  | inUse b0 b1 =>
    refine Evals.bank1Selected.ite (fun hb => ?_) fun hb => ?_
    · rwa [hb] at h
    · rwa [hb] at h
  | notInUse b0 b1 =>
    refine (Evals.flag .rb).ite (fun hb => ?_) fun hb => ?_
    · rwa [hb] at h
    · rwa [hb] at h
  | status | own name => exact h

theorem exec_pick {σ : Type} [Bus σ] {vm : Vm} (hx : Shows vm x) (p : Storage) (e : Expr) (bus : σ) :
    Machine.exec (p.write e) ⟨vm, bus⟩ = Machine.exec ((p.pick x.bank1 (x.flag .rb)).write e) ⟨vm, bus⟩ := by
  cases p with
  | inUse b0 b1 =>
    refine (exec_branch (Evals.bank1Selected.eval bus hx) _ _).trans ?_
    cases x.bank1 <;> rfl
  | notInUse b0 b1 =>
    refine (exec_branch ((Evals.flag .rb).eval bus hx) _ _).trans ?_
    show _ = Machine.exec ((Storage.own (if x.flag .rb then b0 else b1)).write e) ⟨vm, bus⟩
    cases x.flag .rb <;> rfl
  | status | own name => rfl

/-! ## Indices -/

theorem sub_r0Bank_lt {index : Nat} (h : isOtherBank index) : index - r0Bank < 16 := by
  rw [isOtherBank, Bool.and_eq_true, decide_eq_true_iff, decide_eq_true_iff] at h
  have hlt : index < 34 := h.2
  show index - 26 < 16
  omega

/-- The register that an index names if bank 1 is in use or not, and flag RB set or not. -/
def slotAt (bank1 rb : Bool) (index : Nat) : Slot :=
  if h : index < 16 then .own (State.generalVar bank1 ⟨index, h⟩)
  else if h : isOtherBank index then .own (State.generalVar (!rb) ⟨index - r0Bank, sub_r0Bank_lt h⟩)
  else slot index

theorem storage_pick : ∀ index < regCount, ∀ bank1 rb,
    Storage.pick bank1 rb <$> storage index = .ok (slotAt bank1 rb index).storage := by decide

theorem exists_storage {index : Nat} (h : index < regCount) : ∃ p, storage index = .ok p := by
  obtain ⟨p, hp, -⟩ := Build.map_eq_ok.1 (storage_pick index h false false)
  exact ⟨p, hp⟩

/-- The two copies of R0 to R7 are different variables. -/
theorem generalVar_bank : ∀ (n : Fin 16) (bank1 bank1' : Bool),
    State.generalVar bank1 n = State.generalVar bank1' n ↔ n < bankedCount → bank1 = bank1' := by decide

namespace State

variable (st : State)

/-- The register that an index names in a state. -/
def place (index : Nat) : Slot := slotAt st.bank1 (st.flag .rb) index

theorem place_general (n : Fin 16) : st.place n = .own (generalVar st.bank1 n) := by
  have hall : ∀ bank1 rb, ∀ n : Fin 16, slotAt bank1 rb n = .own (generalVar bank1 n) := by decide
  exact hall ..

theorem place_saved {n : Nat} (h : n ∈ savedRegs) : st.place n = slot n := by
  have hall : ∀ bank1 rb, ∀ n ∈ savedRegs, slotAt bank1 rb n = slot n := by decide
  exact hall _ _ n h

end State

/-! ## Reading and writing -/

variable {index : Nat} {p : Storage}

theorem pick_of_storage (h : storage index = .ok p) (st : State) :
    p.pick st.bank1 (st.flag .rb) = (st.place index).storage := by
  have hpick := storage_pick index (lt_of_storage h) st.bank1 (st.flag .rb)
  rw [h] at hpick
  exact Except.ok.inj hpick

theorem Evals.place (h : storage index = .ok p) : Evals x p.read (.word ((x.place index).value x.toState)) := by
  refine Evals.of_pick ?_
  rw [pick_of_storage h]
  exact Evals.slot _

variable {σ : Type} [Bus σ] {bigEndian : Bool} {bus bus' : σ} {es : List Effect} {v : BitVec 32}

/-- A register that is set by its index takes a value that may depend on the memory. -/
theorem RunsOn.setPlace (h : storage index = .ok p) (hv : EvalsOn bigEndian bus x e (.word v))
    (hrest : RunsOn bigEndian bus (x.setSlot v (x.place index)) es z) : RunsOn bigEndian bus x (p.write e :: es) z := by
  refine cons_of_exec (fun {vm} hvm hx => ?_) hrest
  rw [exec_pick hx, pick_of_storage h]
  exact exec_setSlot hx (hv.eval hvm hx)

theorem RunsOn.setReg {n : Fin 16} (hv : EvalsOn bigEndian bus x e (.word v))
    (hrest : RunsOn bigEndian bus (x.setReg n v) es z) : RunsOn bigEndian bus x ((generalStorage n).write e :: es) z := by
  refine .setPlace (storage_general n) hv ?_
  rw [State.place_general]
  exact hrest

/-- A register is not set to a value that cannot be evaluated. -/
theorem exec_setReg_error {vm : Vm} (hx : Shows vm x) (n : Fin 16) {error : Failure VmError}
    (he : vm.eval e bus = .error error bus') :
    Machine.exec ((generalStorage n).write e) ⟨vm, bus⟩ = .error error ⟨vm, bus'⟩ := by
  rw [exec_pick hx, pick_of_storage (storage_general n), State.place_general]
  exact exec_set_error he _

end Cpu
end SuperH
