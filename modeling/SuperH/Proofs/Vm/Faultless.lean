import SuperH.Memory.Linear
import SuperH.Proofs.Vm.Operation
import SuperH.Proofs.Vm.Soundness

/-!
# No tree makes the interpreter fault

* `Reports` : an outcome that is an answer or an error, and no fault of a bit-vector operation; `Faultless` : a run with
  such outcomes;
* `eval_faultless`, `exec_faultless`, `step_faultless` : the interpreter checks all that its bit-vector operations rely on,
  whatever the tree is made of;
* `Vm.Fits` : all that this takes of the state, a program counter of its width, which no operation changes (`Fits.runAll`);
* `malformed_reported` : so much for every tree on every interpreter that there can be.
-/

namespace SuperH

variable {σ : Type} {α β : Type}

/-- The failure is an error that is reported, and no fault. -/
def Failure.IsError {ε : Type} : Failure ε → Prop
  | .error _ => True
  | .fault _ => False

theorem Failure.IsBus.isError {f : Failure VmError} (h : f.IsBus) : f.IsError := by
  cases f with
  | error e => trivial
  | fault f => exact h

/-- The run answered, or it stopped with an error. -/
def Reports (r : EStateM.Result (Failure VmError) σ α) : Prop :=
  (∃ a s, r = .ok a s) ∨ ∃ (e : VmError) (s : σ), r = .error (.error e) s

/-- From a state with `P`, the run leaves `P` true or reports an error. -/
def Faultless (P : σ → Prop) (x : EStateM (Failure VmError) σ α) : Prop := Meets P x (fun _ => P) (fun f _ => f.IsError)

theorem Sound.faultless {x : Eval σ α} {Q : α → Prop} (h : Sound x Q) : Faultless (fun _ => True) x :=
  h.mono (fun _ => id) (fun _ _ _ => trivial) fun _ _ => Failure.IsBus.isError

namespace Faultless

variable {P : σ → Prop}

theorem pure {a : α} : Faultless P (Pure.pure a) := fun _ h => h

theorem throw {e : VmError} : Faultless P (MonadExcept.throw (.error e) : EStateM (Failure VmError) σ α) :=
  fun _ _ => trivial

theorem modify {f : σ → σ} (h : ∀ s, P s → P (f s)) : Faultless P (modify f) := h

theorem bind {x : EStateM (Failure VmError) σ α} {f : α → EStateM (Failure VmError) σ β} (hx : Faultless P x)
    (hf : ∀ a, Faultless P (f a)) : Faultless P (x >>= f) := Meets.bind hx hf

theorem ofError {r : Except VmError α} : Faultless P (Failure.ofError r) := by
  cases r with
  | ok a => exact pure
  | error e => exact throw

theorem ofFault {r : Except Fault α} {a : α} (h : r = .ok a) : Faultless P (Failure.ofFault r) := by
  subst h
  exact pure

/-- What follows a check of two widths may rely on it. -/
theorem bind_sameWidth {x y : Nat} {f : Unit → EStateM (Failure VmError) σ β} (h : x = y → Faultless P (f ())) :
    Faultless P (Failure.ofError (Vm.requireSameWidth x y) >>= f) := by
  unfold Vm.requireSameWidth
  split
  · exact h ‹_›
  · exact fun _ _ => trivial

/-- A run of the bus keeps what the interpreter's state alone decides. -/
theorem onBus {p : Vm → Prop} {x : Vm → Eval σ α} (h : ∀ vm, Faultless (fun _ => True) (x vm)) :
    Faultless (fun m => p m.vm) (Machine.onBus x) := by
  refine Meets.onBus fun vm bus hp => ?_
  have hrun := h vm bus trivial
  cases hr : x vm bus with
  | ok a b => exact hp
  | error f b =>
    rw [hr] at hrun
    exact hrun

theorem onVm {p : Vm → Prop} {x : VmM α} (h : Faultless p x) :
    Faultless (fun m : Machine σ => p m.vm) (Machine.onVm x) := Meets.liftVm h

theorem reports {x : EStateM (Failure VmError) σ α} (h : Faultless P x) {s : σ} (hs : P s) : Reports (x s) := by
  have h := h s hs
  cases hr : x s with
  | ok a t => exact .inl ⟨a, t, rfl⟩
  | error f t =>
    rw [hr] at h
    cases f with
    | error e => exact .inr ⟨e, t, rfl⟩
    | fault f => exact h.elim

end Faultless

namespace Vm

variable [Bus σ]

/-! ## Expressions -/

/-- A load counts its bits in 32 bits, so the width of what it reads is not cut. -/
theorem load_faultless (config : VmConfig) (addr : Address) {n : Nat} (hlt : n < 2 ^ 32) :
    Faultless (fun _ => True) (load config addr n : Eval σ Bits) := by
  by_cases h : n = 0 ∨ n % 8 ≠ 0
  · unfold load
    rw [if_pos h]
    exact .throw
  · obtain ⟨h₀, h₈⟩ := not_or.1 h
    exact (load_sound config addr h₀ (not_not.1 h₈) hlt).faultless

/-- An expression has a value or an error, whatever it is made of and whatever its variables hold. -/
theorem eval_faultless (vm : Vm) (e : Expr) :
    Faultless (fun _ => True) (vm.eval e : Eval σ Value) := by
  induction e with
  | bool b | bits v => exact .pure
  | var v => exact .ofError
  | ite c t e ihc iht ihe =>
    refine ihc.bind fun x => Faultless.ofError.bind fun b => ?_
    cases b
    · exact ihe
    · exact iht
  | not x ih => exact ih.bind fun _ => Faultless.ofError.bind fun _ => .pure
  | logic op x y ihx ihy =>
    exact ihx.bind fun _ => Faultless.ofError.bind fun _ => ihy.bind fun _ => Faultless.ofError.bind fun _ => .pure
  | msb x ih | lsb x ih | isZero x ih | neg x ih | complement x ih =>
    exact ih.bind fun _ => Faultless.ofError.bind fun _ => .pure
  | cmp op x y ihx ihy =>
    by_cases hop : op = .eq
    · subst hop
      exact ihx.bind fun _ => ihy.bind fun _ => Faultless.ofError.bind fun _ => .pure
    · rw [eval_cmp hop]
      refine ihx.bind fun _ => Faultless.ofError.bind fun a => ihy.bind fun _ => Faultless.ofError.bind fun b => ?_
      refine .bind_sameWidth fun hab => ?_
      exact (Faultless.ofFault (if_pos hab)).bind fun _ => (Faultless.ofFault (if_pos hab)).bind fun _ => .pure
  | arith op x y ihx ihy =>
    refine ihx.bind fun _ => Faultless.ofError.bind fun a => ihy.bind fun _ => Faultless.ofError.bind fun b => ?_
    refine .bind_sameWidth fun hab => ?_
    obtain ⟨r, hr, -⟩ := op.apply_eq_ok hab
    exact (Faultless.ofFault hr).bind fun _ => .pure
  | shift op x n ihx ihn => exact ihx.bind fun _ => Faultless.ofError.bind fun _ => ihn.bind fun _ => .pure
  | cast signed width x ih =>
    rw [eval]
    split
    · exact ih.bind fun _ => .pure
    · exact .throw
  | loadBits n a ih =>
    exact ih.bind fun _ => Faultless.ofError.bind fun _ => Faultless.ofError.bind fun a =>
      (load_faultless vm.config a n.isLt).bind fun _ => .pure

theorem store_faultless (config : VmConfig) (addr : Address) (v : Bits) :
    Faultless (fun _ => True) (store config addr v : Eval σ Unit) := by
  by_cases h : v.width % 8 = 0
  · exact (store_sound config addr h).faultless
  · unfold store
    rw [if_pos h]
    exact .throw

/-! ## States -/

/-- The program counter has the width of the configuration. -/
def Fits (vm : Vm) : Prop := vm.pc.width = vm.config.pcBits

variable {vm : Vm}

theorem Fits.pos (h : vm.Fits) : 0 < vm.config.pcBits := h ▸ vm.pc.width_pos

theorem closed_fits : Closed Fits where
  stable := ⟨id, fun _ _ _ => id, id, fun _ _ => rfl, id, fun _ => id⟩
  declare _ := id
  take := id
  bind _ _ := id
  load _ _ _ _ := id

/-- An operation does not change the width of the program counter, nor what it should be. -/
theorem Fits.run (h : vm.Fits) (op : Operation) : (op.run vm).Fits := by
  by_cases hattach : ∃ b, op = .attach b
  · -- registers may be bound to variables of other sorts, which the program counter is not about
    obtain ⟨binding, rfl⟩ := hattach
    have hkeeps : Keeps Fits (attachBinding binding) := by
      refine Keeps.bind (fun vm hvm => ?_) fun _ => Keeps.modify fun _ => id
      rw [requireUnbound_eq]
      split
      · exact hvm
      · exact hvm
    exact hkeeps.final h
  · exact Operation.run_keeps closed_fits (fun b hb => absurd ⟨b, hb⟩ hattach) h

theorem Fits.runAll (h : vm.Fits) (ops : List Operation) : (runAll ops vm).Fits := by
  induction ops generalizing vm with
  | nil => exact h
  | cons op ops ih => exact ih (h.run op)

theorem fits_of_new {config : VmConfig} (h : new config = .ok vm) : vm.Fits := (sound_of_new h).pc

/-! ## Changes of the state -/

theorem assign_faultless (v : Var) (value : Value) : Faultless Fits (assign v value) := by
  intro vm hvm
  obtain ⟨scope, name⟩ := v
  cases scope with
  | temp => exact hvm
  | global =>
    show Satisfies _ _ (setGlobal name value vm)
    rw [setGlobal_eq]
    cases vm.get? name with
    | none => trivial
    | some old =>
      dsimp only
      cases old.checkSort value with
      | ok u => exact hvm
      | error e => trivial

theorem raise_faultless (name : String) : Faultless Fits (raise name) := .modify fun _ h => h

theorem jump_faultless (target : Bits) : Faultless Fits (jump target) := by
  intro vm hvm
  rw [jump_eq hvm.pos]
  rfl

theorem advance_faultless (size : Nat) : Faultless Fits (advance size) := by
  intro vm hvm
  rw [advance_eq hvm.pos hvm]
  show Fits (if vm.jumped then vm else _)
  split
  · exact hvm
  · exact hvm

end Vm

namespace Machine

variable [Bus σ]

/-! ## Effects -/

theorem value_faultless (e : Expr) : Faultless (fun m : Machine σ => m.vm.Fits) (value e) :=
  .onBus fun vm => vm.eval_faultless e

theorem address_faultless (e : Expr) : Faultless (fun m : Machine σ => m.vm.Fits) (address e) :=
  .onBus fun vm => (vm.eval_faultless e).bind fun _ => Faultless.ofError.bind fun _ => .ofError

mutual

/-- An effect runs to its end or to an error, and leaves the program counter of its width. -/
theorem exec_faultless : ∀ e : Effect, Faultless (fun m : Machine σ => m.vm.Fits) (exec e)
  | .nop | .empty => .pure
  | .set v e => (value_faultless e).bind fun x => .onVm (Vm.assign_faultless v x)
  | .store a e => (address_faultless a).bind fun addr => (value_faultless e).bind fun x =>
      .onBus fun vm => Vm.store_faultless vm.config addr x.toBits
  | .seq es => execAll_faultless es
  | .branch c t e => by
    refine (value_faultless c).bind fun x => Faultless.ofError.bind fun b => ?_
    cases b with
    | true => exact exec_faultless t
    | false => exact exec_faultless e
  | .jmp target => (value_faultless target).bind fun x => .onVm (Vm.jump_faultless x.toBits)
  | .raise name => .onVm (Vm.raise_faultless name)

theorem execAll_faultless : ∀ es : List Effect, Faultless (fun m : Machine σ => m.vm.Fits) (execAll es)
  | [] => .pure
  | e :: es => (exec_faultless e).bind fun _ => execAll_faultless es

end

theorem step_faultless (lifted : Lifted) (size : Nat) :
    Faultless (fun m : Machine σ => m.vm.Fits) (step lifted size) := by
  have hbegin : Faultless (fun m : Machine σ => m.vm.Fits) (onVm Vm.begin) := .onVm (.modify fun _ h => h)
  refine hbegin.bind fun _ => ?_
  cases lifted with
  | effect e => exact (exec_faultless e).bind fun _ => .onVm (Vm.advance_faultless size)
  | exception name => exact (Faultless.onVm (Vm.raise_faultless name)).bind fun _ => .onVm (Vm.advance_faultless size)

end Machine

/-! ## Every tree on every interpreter -/

section

variable [Bus σ]

/-- Whatever an expression, an effect or a lifted instruction is made of, it runs to an answer or to an error on every
interpreter with a program counter of at least one bit, whatever was done to that before, and on every bus. -/
theorem malformed_reported {config : VmConfig} (hpc : 0 < config.pcBits) :
    ∃ start, Vm.new config = .ok start ∧ ∀ (ops : List Vm.Operation) (bus : σ),
      (∀ e : Expr, Reports ((Vm.runAll ops start).eval e bus)) ∧
        (∀ e : Effect, Reports (Machine.exec e ⟨Vm.runAll ops start, bus⟩)) ∧
        ∀ (lifted : Lifted) (size : Nat), Reports (Machine.step lifted size ⟨Vm.runAll ops start, bus⟩) := by
  have hnew : Vm.new config = .ok { config, pc := .zero config.pcBits hpc } := dif_pos hpc
  refine ⟨_, hnew, fun ops bus => ?_⟩
  have hfits := (Vm.fits_of_new hnew).runAll ops
  refine ⟨fun e => ?_, fun e => ?_, fun lifted size => ?_⟩
  · exact (Vm.eval_faultless _ e).reports trivial
  · exact (Machine.exec_faultless e).reports hfits
  · exact (Machine.step_faultless lifted size).reports hfits

end

/-- A sum of operands of 8 and 16 bits, on an interpreter with a program counter of one bit that was sent elsewhere. -/
theorem malformed_reported_add : 0 < 1 ∧ ∃ start, Vm.new { pcBits := 1 } = .ok start ∧
    Reports (Machine.step (.effect (.jmp (.add (.const 8 1) (.const 16 1)))) 2
      ⟨Vm.runAll [.setPc (.ofNat 32 5), .addGlobal "t" (.bool true)] start, LinearMemory.zeros 4⟩) := by
  have hpc : 0 < ({ pcBits := 1 } : VmConfig).pcBits := Nat.one_pos
  obtain ⟨start, hnew, h⟩ := malformed_reported (σ := LinearMemory) hpc
  exact ⟨hpc, start, hnew, (h _ _).2.2 _ 2⟩

end SuperH
