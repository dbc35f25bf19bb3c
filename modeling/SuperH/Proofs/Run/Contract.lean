import SuperH.Session

/-!
# Contracts of runs

* `Meets P x Q E` : from a state with `P`, the run `x` answers in a state with `Q` or fails in a state with `E`;
* `Keeps P x` : `x` leaves `P` true, also when it fails;
* `Meets.bind`, `Meets.onVm`, `Meets.onBus` : contracts of a run from contracts of its parts;
* `final`, `outcome` : the state that a run leaves, and what it answers, which are all there is to it (`eq_ok_iff`,
  `eq_error_iff`);
* `bind_of_ok`, `bind_of_error` : a run after a part whose outcome is known.
-/

namespace SuperH

variable {ε σ α β : Type}

/-- The state that a run leaves. -/
def final : EStateM.Result ε σ α → σ
  | .ok _ s => s
  | .error _ s => s

/-- What a run answers, without the state that it leaves. -/
def outcome : EStateM.Result ε σ α → Except ε α
  | .ok a _ => .ok a
  | .error e _ => .error e

instance decidableEqExcept [DecidableEq ε] [DecidableEq α] : DecidableEq (Except ε α)
  | .ok a, .ok b => decidable_of_iff (a = b) ⟨congrArg _, Except.ok.inj⟩
  | .error e, .error f => decidable_of_iff (e = f) ⟨congrArg _, Except.error.inj⟩
  | .ok _, .error _ | .error _, .ok _ => isFalse nofun

theorem eq_ok_iff {r : EStateM.Result ε σ α} {a : α} {s : σ} : r = .ok a s ↔ outcome r = .ok a ∧ final r = s := by
  cases r with
  | ok b t => simp [outcome, final]
  | error e t => simp [outcome]

theorem eq_error_iff {r : EStateM.Result ε σ α} {e : ε} {s : σ} :
    r = .error e s ↔ outcome r = .error e ∧ final r = s := by
  cases r with
  | ok a t => simp [outcome]
  | error f t => simp [outcome, final]

theorem bind_of_ok {x : EStateM ε σ α} {f : α → EStateM ε σ β} {s t : σ} {a : α} (h : x s = .ok a t) :
    (x >>= f) s = f a t := by
  show EStateM.bind x f s = _
  rw [EStateM.bind, h]

theorem bind_of_error {x : EStateM ε σ α} {f : α → EStateM ε σ β} {s t : σ} {e : ε} (h : x s = .error e t) :
    (x >>= f) s = .error e t := by
  show EStateM.bind x f s = _
  rw [EStateM.bind, h]

/-- The outcome is an answer `a` in a state with `Q a`, or a failure `e` in a state with `E e`. -/
def Satisfies (Q : α → σ → Prop) (E : ε → σ → Prop) : EStateM.Result ε σ α → Prop
  | .ok a s => Q a s
  | .error e s => E e s

/-- From every state with `P`, the run answers `a` in a state with `Q a` or fails with `e` in a state with `E e`. -/
def Meets (P : σ → Prop) (x : EStateM ε σ α) (Q : α → σ → Prop) (E : ε → σ → Prop) : Prop :=
  ∀ s, P s → Satisfies Q E (x s)

/-- The run leaves `P` true, whatever its outcome. -/
def Keeps (P : σ → Prop) (x : EStateM ε σ α) : Prop := Meets P x (fun _ => P) (fun _ => P)

namespace Meets

variable {P : σ → Prop} {x : EStateM ε σ α} {Q : α → σ → Prop} {E : ε → σ → Prop}

theorem pure {a : α} (h : ∀ s, P s → Q a s) : Meets P (Pure.pure a : EStateM ε σ α) Q E := h

theorem bind {f : α → EStateM ε σ β} {R : β → σ → Prop} (hx : Meets P x Q E) (hf : ∀ a, Meets (Q a) (f a) R E) :
    Meets P (x >>= f) R E := by
  intro s hs
  have h := hx s hs
  show Satisfies R E (EStateM.bind x f s)
  unfold EStateM.bind
  cases hr : x s with
  | ok a t => rw [hr] at h; exact hf a t h
  | error e t => rw [hr] at h; exact h

theorem mono {P' : σ → Prop} {Q' : α → σ → Prop} {E' : ε → σ → Prop} (h : Meets P x Q E) (hP : ∀ s, P' s → P s)
    (hQ : ∀ a s, Q a s → Q' a s) (hE : ∀ e s, E e s → E' e s) : Meets P' x Q' E' := by
  intro s hs
  have h := h s (hP s hs)
  cases hr : x s with
  | ok a t => rw [hr] at h; exact hQ a t h
  | error e t => rw [hr] at h; exact hE e t h

/-- What does not depend on the state may be assumed apart. -/
theorem and_left {c : Prop} (h : c → Meets P x Q E) : Meets (fun s => c ∧ P s) x Q E := fun s hs => h hs.1 s hs.2

end Meets

namespace Keeps

variable {P : σ → Prop}

theorem pure {a : α} : Keeps P (Pure.pure a : EStateM ε σ α) := fun _ h => h

theorem throw {e : ε} : Keeps P (MonadExcept.throw e : EStateM ε σ α) := fun _ h => h

theorem bind {x : EStateM ε σ α} {f : α → EStateM ε σ β} (hx : Keeps P x) (hf : ∀ a, Keeps P (f a)) :
    Keeps P (x >>= f) := Meets.bind hx hf

theorem ofError {r : Except ε α} : Keeps P (Failure.ofError r) := by
  cases r <;> exact fun _ h => h

theorem ofFault {r : Except Fault α} : Keeps P (Failure.ofFault r : EStateM (Failure ε) σ α) := by
  cases r <;> exact fun _ h => h

theorem modify {f : σ → σ} (h : ∀ s, P s → P (f s)) : Keeps P (modify f : EStateM ε σ PUnit) := h

theorem ite {c : Prop} [Decidable c] {x y : EStateM ε σ α} (hx : Keeps P x) (hy : Keeps P y) :
    Keeps P (if c then x else y) := by
  split
  · exact hx
  · exact hy

theorem of_ok {x : EStateM ε σ α} (h : Keeps P x) {s t : σ} {a : α} (hx : x s = .ok a t) (hs : P s) : P t := by
  have h := h s hs
  rw [hx] at h
  exact h

theorem final {x : EStateM ε σ α} (h : Keeps P x) {s : σ} (hs : P s) : P (final (x s)) := by
  have h := h s hs
  cases hr : x s with
  | ok a t => rw [hr] at h; exact h
  | error e t => rw [hr] at h; exact h

end Keeps

theorem Keeps.of_final {P : σ → Prop} {x : EStateM ε σ α} (h : ∀ s, P s → P (SuperH.final (x s))) : Keeps P x := by
  intro s hs
  have h := h s hs
  cases hr : x s with
  | ok a t => rw [hr] at h; exact h
  | error e t => rw [hr] at h; exact h

/-! ## Runs of a machine's parts -/

section Machine

variable {P : Machine σ → Prop} {Q : α → Machine σ → Prop} {E : Failure VmError → Machine σ → Prop}

theorem Meets.onVm {x : VmM α}
    (h : ∀ bus, Meets (fun vm => P ⟨vm, bus⟩) x (fun a vm => Q a ⟨vm, bus⟩) (fun e vm => E e ⟨vm, bus⟩)) :
    Meets P (Machine.onVm x) Q E := by
  intro m hm
  have h := h m.bus m.vm hm
  unfold Machine.onVm
  cases hr : x m.vm with
  | ok a vm => rw [hr] at h; exact h
  | error e vm => rw [hr] at h; exact h

theorem Meets.onBus {x : Vm → Eval σ α}
    (h : ∀ vm, Meets (fun bus => P ⟨vm, bus⟩) (x vm) (fun a bus => Q a ⟨vm, bus⟩) (fun e bus => E e ⟨vm, bus⟩)) :
    Meets P (Machine.onBus x) Q E := by
  intro m hm
  have h := h m.vm m.bus hm
  unfold Machine.onBus
  cases hr : x m.vm m.bus with
  | ok a bus => rw [hr] at h; exact h
  | error e bus => rw [hr] at h; exact h

/-- A contract of the interpreter's state is one of the machine. -/
theorem Meets.liftVm {p : Vm → Prop} {x : VmM α} {q : α → Vm → Prop} {e : Failure VmError → Vm → Prop}
    (h : Meets p x q e) :
    Meets (fun m : Machine σ => p m.vm) (Machine.onVm x) (fun a m => q a m.vm) (fun f m => e f m.vm) :=
  Meets.onVm fun _ => h

theorem Keeps.onVm {x : VmM α} (h : ∀ bus, Keeps (fun vm => P ⟨vm, bus⟩) x) : Keeps P (Machine.onVm x) :=
  Meets.onVm h

/-- A run of the bus keeps what the interpreter's state alone decides. -/
theorem Keeps.onBus {p : Vm → Prop} {x : Vm → Eval σ α} : Keeps (fun m => p m.vm) (Machine.onBus x) := by
  refine Meets.onBus fun vm bus h => ?_
  cases x vm bus <;> exact h

end Machine
end SuperH
