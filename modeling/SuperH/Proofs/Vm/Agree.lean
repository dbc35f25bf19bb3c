import SuperH.Proofs.Vm.Policy

/-!
# Agreement of two runs

Two interpreters that differ in nothing that a policy lets a tree touch run it alike.

* `Matches R x y` : from related states, two runs answer the same and leave related states;
* `Vm.Like` : two interpreters that differ in variables only that a policy withholds;
* `eval_congr` : an expression within the policy has the same value on both;
* `exec_matches`, `step_matches` : an effect within the policy keeps them alike, whatever its outcome.
-/

namespace SuperH

/-! ## Matching runs -/

section Matches

variable {ε σ α β : Type} {R : σ → σ → Prop}

/-- From related states, both runs answer the same and leave related states. -/
def Matches (R : σ → σ → Prop) (x y : EStateM ε σ α) : Prop :=
  ∀ s t, R s t → outcome (x s) = outcome (y t) ∧ R (final (x s)) (final (y t))

namespace Matches

theorem pure {a : α} : Matches R (Pure.pure a : EStateM ε σ α) (Pure.pure a) := fun _ _ h => ⟨rfl, h⟩

theorem throw {e : ε} : Matches R (MonadExcept.throw e : EStateM ε σ α) (MonadExcept.throw e) := fun _ _ h => ⟨rfl, h⟩

/-- Both runs answer, or both fail alike. -/
theorem cases {x y : EStateM ε σ α} (h : Matches R x y) {s t : σ} (hst : R s t) :
    (∃ a s' t', x s = .ok a s' ∧ y t = .ok a t' ∧ R s' t') ∨
      ∃ e s' t', x s = .error e s' ∧ y t = .error e t' ∧ R s' t' := by
  obtain ⟨hout, hfinal⟩ := h s t hst
  cases hxs : x s with
  | ok a s' =>
    cases hyt : y t with
    | ok b t' =>
      rw [hxs, hyt] at hout hfinal
      obtain rfl : a = b := Except.ok.inj hout
      exact .inl ⟨a, s', t', rfl, rfl, hfinal⟩
    | error e t' =>
      rw [hxs, hyt] at hout
      cases hout
  | error e s' =>
    cases hyt : y t with
    | ok b t' =>
      rw [hxs, hyt] at hout
      cases hout
    | error e' t' =>
      rw [hxs, hyt] at hout hfinal
      obtain rfl : e = e' := Except.error.inj hout
      exact .inr ⟨e, s', t', rfl, rfl, hfinal⟩

theorem bind {x y : EStateM ε σ α} {f g : α → EStateM ε σ β} (hx : Matches R x y) (hf : ∀ a, Matches R (f a) (g a)) :
    Matches R (x >>= f) (y >>= g) := by
  intro s t h
  rcases hx.cases h with ⟨a, s', t', hxs, hyt, h'⟩ | ⟨e, s', t', hxs, hyt, h'⟩
  · rw [bind_of_ok hxs, bind_of_ok hyt]
    exact hf a s' t' h'
  · rw [bind_of_error hxs, bind_of_error hyt]
    exact ⟨rfl, h'⟩

theorem ofError {r : Except ε α} : Matches R (Failure.ofError r : EStateM (Failure ε) σ α) (Failure.ofError r) := by
  cases r with
  | ok a => exact pure
  | error e => exact throw

theorem ite {c : Prop} [Decidable c] {x y x' y' : EStateM ε σ α} (hx : Matches R x y) (hy : Matches R x' y') :
    Matches R (if c then x else x') (if c then y else y') := by
  split
  · exact hx
  · exact hy

end Matches

end Matches

/-! ## Interpreters that are alike -/

variable {σ : Type} [Bus σ] {π : Policy} {p : Vm → Prop} {vm vm' : Vm}

/-- The interpreters differ in variables only that the policy withholds. -/
structure Vm.Like (π : Policy) (vm vm' : Vm) : Prop where
  config : vm.config = vm'.config
  pc : vm.pc = vm'.pc
  temps : vm.temps = vm'.temps
  events : vm.events = vm'.events
  jumped : vm.jumped = vm'.jumped
  vars : ∀ n, π.vars n → vm.get? n = vm'.get? n

namespace Vm

theorem Like.lookup (h : Like π vm vm') {v : Var} (hv : v.Within π) : vm.lookup v = vm'.lookup v := by
  obtain ⟨scope, name⟩ := v
  cases scope with
  | global =>
    have hget : vm.globals.lookup name = vm'.globals.lookup name := h.vars name (hv rfl)
    simp only [Vm.lookup, hget]
  | temp => simp only [Vm.lookup, h.temps]

theorem Like.replace (h : Like π vm vm') {name : String} (hname : π.vars name) (value : Value) :
    Like π (vm.replace name value) (vm'.replace name value) := by
  refine { h with vars := fun n hn => ?_ }
  rw [get?_replace, get?_replace, h.vars n hn, h.vars name hname]

/-- An expression within the policy has the same value on interpreters that are alike. -/
theorem eval_congr (hoff : π.Refutes σ p) (hvm : p vm) (hvm' : p vm') (h : Like π vm vm') {e : Expr}
    (he : e.Within π) : (vm.eval e : Eval σ Value) = vm'.eval e := by
  induction e with
  | bool b | bits v => rfl
  | var v => rw [eval, eval, h.lookup he]
  | ite c t e ihc iht ihe =>
    rcases he with ⟨hc | ⟨hc, ht⟩, he⟩
    · -- the first side is not evaluated
      rw [eval, eval, hoff c vm hc hvm, hoff c vm' hc hvm']
      exact ihe he
    · rw [eval, eval, ihc hc, iht ht, ihe he]
  | not x ih | msb x ih | lsb x ih | isZero x ih | neg x ih | complement x ih => rw [eval, eval, ih he]
  | logic op x y ihx ihy | arith op x y ihx ihy | shift op x y ihx ihy => rw [eval, eval, ihx he.1, ihy he.2]
  | cmp op x y ihx ihy => cases op <;> rw [eval, eval, ihx he.1, ihy he.2] <;> exact nofun
  | cast signed width x ih => rw [eval, eval, ih he]
  | loadBits n a ih => rw [eval, eval, ih he, h.config]

theorem assign_matches {v : Var} (hv : v.Within π) (value : Value) :
    Matches (Like π) (assign v value) (assign v value) := by
  intro vm vm' h
  obtain ⟨scope, name⟩ := v
  cases scope with
  | temp => exact ⟨rfl, { h with temps := congrArg ((name, value) :: ·) h.temps }⟩
  | global =>
    show outcome (setGlobal name value vm) = outcome (setGlobal name value vm') ∧
      Like π (final (setGlobal name value vm)) (final (setGlobal name value vm'))
    rw [setGlobal_eq, setGlobal_eq, h.vars name (hv rfl)]
    cases vm'.get? name with
    | none => exact ⟨rfl, h⟩
    | some old =>
      dsimp only
      cases old.checkSort value with
      | ok u => exact ⟨rfl, h.replace (hv rfl) value⟩
      | error e => exact ⟨rfl, h⟩

theorem jump_matches (target : Bits) : Matches (Like π) (jump target) (jump target) := by
  intro vm vm' h
  rw [jump_eq_dite, jump_eq_dite]
  simp only [h.config]
  split
  · exact ⟨rfl, { h with config := rfl, pc := rfl, jumped := rfl }⟩
  · exact ⟨rfl, h⟩

theorem advance_matches (size : Nat) : Matches (Like π) (advance size) (advance size) := by
  intro vm vm' h
  rw [advance_eq_dite, advance_eq_dite]
  simp only [h.config, h.pc, h.jumped]
  split
  · exact ⟨rfl, h⟩
  split
  · cases vm'.pc.add (.ofNat vm'.config.pcBits size ‹_›) with
    | ok pc => exact ⟨rfl, { h with config := rfl, pc := rfl, jumped := rfl }⟩
    | error f => exact ⟨rfl, h⟩
  · exact ⟨rfl, h⟩

end Vm

namespace Machine

/-! ## Machines that are alike -/

/-- The machines have equal memories and interpreters that are alike, both with a property. -/
structure Like (π : Policy) (p : Vm → Prop) (m m' : Machine σ) : Prop where
  bus : m.bus = m'.bus
  vm : m.vm.Like π m'.vm
  left : p m.vm
  right : p m'.vm

omit [Bus σ] in
theorem onBus_matches {α : Type} {x : Vm → Eval σ α}
    (h : ∀ vm vm', vm.Like π vm' → p vm → p vm' → x vm = x vm') :
    Matches (Like (σ := σ) π p) (onBus x) (onBus x) := by
  intro m m' hm
  obtain ⟨vm, bus⟩ := m
  obtain ⟨vm', bus'⟩ := m'
  obtain rfl : bus = bus' := hm.bus
  unfold onBus
  dsimp only
  rw [h vm vm' hm.vm hm.left hm.right]
  cases x vm' bus with
  | ok a b => exact ⟨rfl, { hm with bus := rfl }⟩
  | error e b => exact ⟨rfl, { hm with bus := rfl }⟩

omit [Bus σ] in
theorem onVm_matches {α : Type} {x : VmM α} (h : Matches (Vm.Like π) x x) (hkeeps : Keeps p x) :
    Matches (Like (σ := σ) π p) (onVm x) (onVm x) := by
  intro m m' hm
  have hl := hkeeps.final hm.left
  have hr := hkeeps.final hm.right
  unfold onVm
  rcases h.cases hm.vm with ⟨a, vm, vm', hx, hy, hvm⟩ | ⟨e, vm, vm', hx, hy, hvm⟩
  · rw [hx] at hl
    rw [hy] at hr
    rw [hx, hy]
    exact ⟨rfl, ⟨hm.bus, hvm, hl, hr⟩⟩
  · rw [hx] at hl
    rw [hy] at hr
    rw [hx, hy]
    exact ⟨rfl, ⟨hm.bus, hvm, hl, hr⟩⟩

theorem value_matches (hoff : π.Refutes σ p) {e : Expr} (he : e.Within π) :
    Matches (Like (σ := σ) π p) (value e) (value e) :=
  onBus_matches fun _ _ h hp hp' => Vm.eval_congr hoff hp hp' h he

theorem address_matches (hoff : π.Refutes σ p) {e : Expr} (he : e.Within π) :
    Matches (Like (σ := σ) π p) (address e) (address e) :=
  onBus_matches fun vm vm' h hp hp' => by rw [Vm.eval_congr hoff hp hp' h he, h.config]

/-- A branch on a condition of the policy takes its second side. -/
theorem exec_branch_off (hoff : π.Refutes σ p) {c : Expr} (hc : π.off c) (t e : Effect) {m : Machine σ} (hm : p m.vm) :
    exec (.branch c t e) m = exec e m := by
  have hvalue : value c m = .ok (.bool false) m := by
    show onBus (fun vm => vm.eval c) m = _
    unfold onBus
    dsimp only
    rw [hoff c m.vm hc hm]
    rfl
  exact bind_of_ok hvalue

mutual

/-- Machines that are alike run an effect within the policy alike, whatever its outcome. -/
theorem exec_matches (hoff : π.Refutes σ p) (h : π.Stable p) : ∀ {e : Effect}, e.Within π →
    Matches (Like (σ := σ) π p) (exec e) (exec e)
  | .nop, _ | .empty, _ => Matches.pure
  | .set v e, he => Matches.bind (value_matches hoff he.2) fun x =>
      onVm_matches (Vm.assign_matches he.1 x) (Vm.assign_keeps h.closed he.1 x)
  | .store a e, he => Matches.bind (address_matches hoff he.1) fun addr =>
      Matches.bind (value_matches hoff he.2) fun x => onBus_matches fun vm vm' hl _ _ => by rw [hl.config]
  | .seq es, he => execAll_matches hoff h he
  | .branch c t e, ⟨.inl hc, he⟩ => by
    intro m m' hm
    rw [exec_branch_off hoff hc t e hm.left, exec_branch_off hoff hc t e hm.right]
    exact exec_matches hoff h he m m' hm
  | .branch c t e, ⟨.inr ⟨hc, ht⟩, he⟩ => Matches.bind (value_matches hoff hc) fun _ =>
      Matches.bind Matches.ofError fun _ => Matches.ite (exec_matches hoff h ht) (exec_matches hoff h he)
  | .jmp target, he => Matches.bind (value_matches hoff he) fun x =>
      onVm_matches (Vm.jump_matches x.toBits) (Vm.jump_keeps h.closed x.toBits)
  | .raise name, he => onVm_matches
      (fun vm vm' hl => ⟨rfl, { hl with events := congrArg (· ++ [name]) hl.events }⟩)
      (Keeps.modify fun _ => h.raise he)

theorem execAll_matches (hoff : π.Refutes σ p) (h : π.Stable p) : ∀ {es : List Effect}, Effect.AllWithin π es →
    Matches (Like (σ := σ) π p) (execAll es) (execAll es)
  | [], _ => Matches.pure
  | _ :: _, hes => Matches.bind (exec_matches hoff h hes.1) fun _ => execAll_matches hoff h hes.2

end

/-- Machines that are alike run an instruction alike whose effect is within the policy. -/
theorem step_effect_matches (hoff : π.Refutes σ p) (h : π.Stable p) {e : Effect} (he : e.Within π) (size : Nat) :
    Matches (Like (σ := σ) π p) (step (.effect e) size) (step (.effect e) size) := by
  refine Matches.bind (onVm_matches (fun vm vm' hl => ⟨rfl, ?_⟩) fun _ => h.start) fun _ =>
    Matches.bind (exec_matches hoff h he) fun _ => onVm_matches (Vm.advance_matches size) (Vm.advance_keeps h size)
  exact { hl with temps := rfl, jumped := rfl }

end Machine
end SuperH
