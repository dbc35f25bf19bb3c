import SuperH.Proofs.Bits.Value
import SuperH.Proofs.Run.Contract
import SuperH.Proofs.Vm.Sorting

/-!
# Soundness of sorts

A well-sorted tree runs to its end on every interpreter whose variables have the sorts of the sorting; only the bus can
stop it.

* `Sound` : a run that fails on the bus only;
* `Vm.Respects`, `Vm.Typed` : the variables of an interpreter have the sorts of a sorting, and its program counter and
  its addresses have their widths;
* `eval_sound` : a well-sorted expression has a value of its sort;
* `exec_sound`, `step_sound` : a well-sorted effect leaves an interpreter of the same sorts.
-/

namespace SuperH

/-! ## Runs that fail on the bus only -/

/-- The failure is the bus's. -/
def Failure.IsBus : Failure VmError → Prop
  | .error (.bus _ _) => True
  | _ => False

variable {σ : Type} {α β : Type}

/-- The run answers with `Q`, unless the bus fails. -/
def Sound (x : Eval σ α) (Q : α → Prop) : Prop := Meets (fun _ => True) x (fun a _ => Q a) (fun f _ => f.IsBus)

namespace Sound

theorem pure {a : α} {Q : α → Prop} (h : Q a) : Sound (Pure.pure a : Eval σ α) Q := fun _ _ => h

theorem bind {x : Eval σ α} {f : α → Eval σ β} {Q : α → Prop} {R : β → Prop} (hx : Sound x Q)
    (hf : ∀ a, Q a → Sound (f a) R) : Sound (x >>= f) R := by
  refine Meets.bind hx fun a => ?_
  intro s ha
  exact hf a ha s trivial

theorem ofError {r : Except VmError α} {Q : α → Prop} {a : α} (hr : r = .ok a) (h : Q a) :
    Sound (Failure.ofError r : Eval σ α) Q := by
  subst hr
  exact fun _ _ => h

theorem ofFault {r : Except Fault α} {Q : α → Prop} {a : α} (hr : r = .ok a) (h : Q a) :
    Sound (Failure.ofFault r : Eval σ α) Q := by
  subst hr
  exact fun _ _ => h

/-- A sound run of the bus is one of the machine, which keeps the interpreter's state. -/
theorem onBus {p : Vm → Prop} {x : Vm → Eval σ α} {Q : α → Prop} (h : ∀ vm, p vm → Sound (x vm) Q) :
    Meets (fun m => p m.vm) (Machine.onBus x) (fun a m => Q a ∧ p m.vm) (fun f _ => f.IsBus) := by
  refine Meets.onBus fun vm bus hvm => ?_
  have h := h vm hvm bus trivial
  cases hr : x vm bus with
  | ok a b => rw [hr] at h; exact ⟨h, hvm⟩
  | error f b => rw [hr] at h; exact h

/-- Evaluating to a truth value and going on with it. -/
theorem bind_bool {x : Eval σ Value} {f : Bool → Eval σ β} {R : β → Prop} (hx : Sound x (·.sort = .bool))
    (hf : ∀ b, Sound (f b) R) : Sound (x >>= fun a => Failure.ofError a.asBool >>= f) R := by
  refine hx.bind fun a ha => ?_
  obtain ⟨b, rfl⟩ := Value.eq_bool_of_sort ha
  exact (ofError (Q := fun _ => True) rfl trivial).bind fun b _ => hf b

/-- Evaluating to a bit-vector and going on with it. -/
theorem bind_bits {x : Eval σ Value} {f : Bits → Eval σ β} {R : β → Prop} {w : Nat} (hx : Sound x (·.sort = .bits w))
    (hf : ∀ v, v.width = w → Sound (f v) R) : Sound (x >>= fun a => Failure.ofError a.asBits >>= f) R := by
  refine hx.bind fun a ha => ?_
  obtain ⟨v, rfl, hv⟩ := Value.eq_bits_of_sort ha
  exact (ofError (Q := (·.width = w)) rfl hv).bind hf

end Sound

/-! ## Operations on bit-vectors of matching widths -/

theorem ArithOp.apply_eq_ok (op : ArithOp) {x y : Bits} (h : x.width = y.width) :
    ∃ r, op.apply x y = .ok r ∧ r.width = x.width := by
  cases op <;> exact ⟨_, if_pos h, rfl⟩

theorem ShiftOp.width_apply (op : ShiftOp) (x : Bits) (n : Nat) : (op.apply x n).width = x.width := by
  cases op <;> simp only [apply, Bits.shl, Bits.lshr, Bits.ashr] <;> split <;> try rfl
  split <;> rfl

theorem Bits.ofLeBytes_eq_ok {bytes : List UInt8} (h : 0 < bytes.length) (hlt : 8 * bytes.length < 2 ^ 32) :
    ∃ v, Bits.ofLeBytes bytes = .ok v ∧ v.width = 8 * bytes.length :=
  ⟨_, Bits.ofLeBytes_of_lt (by omega) hlt, rfl⟩

namespace Vm

variable [Bus σ]

/-! ## Soundness of evaluation -/

/-- Every variable that is certain to have a value has one, of its sort. -/
def Respects (Γ : Sorting) (assigned : List String) (vm : Vm) : Prop :=
  ∀ v s, Γ.var assigned v = some s → ∃ x, vm.lookup v = .ok x ∧ x.sort = s

theorem readByte_sound (addr : Address) : Sound (readByte addr : Eval σ UInt8) fun _ => True := by
  intro bus _
  show Satisfies _ _ (EStateM.adaptExcept _ (Bus.read8 addr) bus)
  unfold EStateM.adaptExcept
  cases Bus.read8 addr bus <;> trivial

theorem readBytes_sound (addr : Address) (n : Nat) : Sound (readBytes addr n : Eval σ (List UInt8)) (·.length = n) := by
  induction n generalizing addr with
  | zero => exact Sound.pure rfl
  | succ n ih =>
    refine (readByte_sound addr).bind fun b _ => ?_
    refine (ih (addr + 1)).bind fun bs hbs => ?_
    exact Sound.pure (by rw [List.length_cons, hbs])

theorem length_ordered (config : VmConfig) (bytes : List UInt8) : (ordered config bytes).length = bytes.length := by
  unfold ordered
  split
  · exact List.length_reverse
  · rfl

theorem load_sound (config : VmConfig) (addr : Address) {n : Nat} (h₀ : n ≠ 0) (h₈ : n % 8 = 0) (hlt : n < 2 ^ 32) :
    Sound (load config addr n : Eval σ Bits) (·.width = n) := by
  have hn : ¬ (n = 0 ∨ n % 8 ≠ 0) := by omega
  unfold load
  rw [if_neg hn]
  show Sound (readBytes addr (n / 8) >>= fun bytes => Failure.ofFault (Bits.ofLeBytes (ordered config bytes))) _
  refine (readBytes_sound addr (n / 8)).bind fun bytes hbytes => ?_
  have hlen := length_ordered config bytes
  have hpos : 0 < (ordered config bytes).length := by omega
  obtain ⟨v, hv, hw⟩ := Bits.ofLeBytes_eq_ok hpos (by omega)
  exact Sound.ofFault hv (by omega)

theorem busAddress_eq_ok {config : VmConfig} (hkey : config.memKeyBits = 32) {a : Bits} (ha : a.width = 32) :
    busAddress config a = .ok (BitVec.ofNat 32 a.toNat) := by
  have hlt : a.toNat < 2 ^ 32 := ha ▸ a.toNat_lt
  rw [busAddress, if_neg (by rw [ha, hkey]; exact not_not_intro rfl), Bits.below?_eq (by omega), if_pos hlt]

/-- All comparisons but equality are evaluated alike. -/
theorem eval_cmp {op : CmpOp} (hop : op ≠ .eq) (vm : Vm) (x y : Expr) :
    (vm.eval (.cmp op x y) : Eval σ Value) = (do
      let x ← Failure.ofError (← eval vm x).asBits
      let y ← Failure.ofError (← eval vm y).asBits
      Failure.ofError (requireSameWidth x.width y.width)
      let unsigned ← x.ucmp y
      let signed ← x.scmp y
      return .bool (op.holds unsigned signed)) := by
  cases op <;> first | exact absurd rfl hop | rfl

theorem eq_sound {vm : Vm} {x y : Expr} {t : ValueSort} (hx : Sound (vm.eval x : Eval σ Value) (·.sort = t))
    (hy : Sound (vm.eval y : Eval σ Value) (·.sort = t)) :
    Sound (vm.eval (.cmp .eq x y) : Eval σ Value) (·.sort = .bool) := by
  refine hx.bind fun a ha => hy.bind fun b hb => ?_
  have hab : a.width = b.width := Value.width_eq_of_sort (ha.trans hb.symm)
  exact (Sound.ofError (Q := fun _ => True) (if_pos hab) trivial).bind fun _ _ => Sound.pure rfl

theorem cmp_sound {op : CmpOp} (hop : op ≠ .eq) {vm : Vm} {x y : Expr} {w : Nat}
    (hx : Sound (vm.eval x : Eval σ Value) (·.sort = .bits w))
    (hy : Sound (vm.eval y : Eval σ Value) (·.sort = .bits w)) :
    Sound (vm.eval (.cmp op x y) : Eval σ Value) (·.sort = .bool) := by
  rw [eval_cmp hop]
  refine Sound.bind_bits hx fun a ha => Sound.bind_bits hy fun b hb => ?_
  have hab : a.width = b.width := ha.trans hb.symm
  -- the widths are checked three times over: before the two orders, and within each
  refine (Sound.ofError (Q := fun _ => True) (if_pos hab) trivial).bind fun _ _ => ?_
  refine (Sound.ofFault (Q := fun _ => True) (if_pos hab) trivial).bind fun _ _ => ?_
  exact (Sound.ofFault (Q := fun _ => True) (if_pos hab) trivial).bind fun _ _ => Sound.pure rfl

theorem arith_sound {op : ArithOp} {vm : Vm} {x y : Expr} {w : Nat}
    (hx : Sound (vm.eval x : Eval σ Value) (·.sort = .bits w))
    (hy : Sound (vm.eval y : Eval σ Value) (·.sort = .bits w)) :
    Sound (vm.eval (.arith op x y) : Eval σ Value) (·.sort = .bits w) := by
  refine Sound.bind_bits hx fun a ha => Sound.bind_bits hy fun b hb => ?_
  have hab : a.width = b.width := ha.trans hb.symm
  refine (Sound.ofError (Q := fun _ => True) (if_pos hab) trivial).bind fun _ _ => ?_
  obtain ⟨r, hr, hw⟩ := op.apply_eq_ok hab
  refine (Sound.ofFault (Q := (·.width = w)) hr (hw.trans ha)).bind fun r hr => ?_
  exact Sound.pure (congrArg _ hr)

/-- A well-sorted expression has a value of its sort, unless the bus fails. -/
theorem eval_sound {Γ : Sorting} {assigned : List String} {vm : Vm} (hvm : vm.Respects Γ assigned)
    (hkey : vm.config.memKeyBits = 32) {e : Expr} {s : ValueSort} (h : e.sort? Γ assigned = some s) :
    Sound (vm.eval e : Eval σ Value) (·.sort = s) := by
  induction e generalizing s with
  | bool b => cases h; exact Sound.pure rfl
  | bits v => cases h; exact Sound.pure rfl
  | var v =>
    obtain ⟨x, hx, hs⟩ := hvm v s h
    exact Sound.ofError hx hs
  | ite c t e ihc iht ihe =>
    rw [Expr.sort?] at h
    split at h
    · obtain ⟨hc, hte⟩ := ‹_ ∧ _›
      refine Sound.bind_bool (ihc hc) fun b => ?_
      cases b
      · exact ihe (hte ▸ h)
      · exact iht h
    · cases h
  | not x ih =>
    rw [Expr.sort?] at h
    split at h
    · cases h
      exact Sound.bind_bool (ih ‹_›) fun b => Sound.pure rfl
    · cases h
  | logic op x y ihx ihy =>
    rw [Expr.sort?] at h
    split at h
    · cases h
      obtain ⟨hx, hy⟩ := ‹_ ∧ _›
      exact Sound.bind_bool (ihx hx) fun a => Sound.bind_bool (ihy hy) fun b => Sound.pure rfl
    · cases h
  | msb x ih | lsb x ih | isZero x ih =>
    obtain ⟨t, ht, hs⟩ := Option.map_eq_some_iff.1 h
    obtain ⟨w, hx, -⟩ := ValueSort.vector_eq_some ht
    subst hs
    exact Sound.bind_bits (ih hx) fun v _ => Sound.pure rfl
  | cmp op x y ihx ihy =>
    by_cases hop : op = .eq
    · subst hop
      rw [Expr.sort?] at h
      split at h
      · rename_i hxy
        obtain ⟨t, ht, hs⟩ := Option.map_eq_some_iff.1 h
        subst hs
        exact eq_sound (ihx ht) (ihy (hxy ▸ ht))
      · cases h
    · rw [Expr.sort?_cmp hop] at h
      obtain ⟨t, ht, hs⟩ := Option.map_eq_some_iff.1 h
      obtain ⟨w, hx, hy, -⟩ := ValueSort.common_eq_some ht
      subst hs
      exact cmp_sound hop (ihx hx) (ihy hy)
  | arith op x y ihx ihy =>
    obtain ⟨w, hx, hy, rfl⟩ := ValueSort.common_eq_some h
    exact arith_sound (ihx hx) (ihy hy)
  | neg x ih | complement x ih =>
    obtain ⟨w, hx, rfl⟩ := ValueSort.vector_eq_some h
    exact Sound.bind_bits (ih hx) fun v hv => Sound.pure (congrArg _ hv)
  | shift op x n ihx ihn =>
    obtain ⟨t, hn, hx⟩ := Option.bind_eq_some_iff.1 h
    obtain ⟨w, hx', rfl⟩ := ValueSort.vector_eq_some hx
    refine Sound.bind_bits (ihx hx') fun v hv => (ihn hn).bind fun k _ => Sound.pure ?_
    exact congrArg ValueSort.bits ((op.width_apply v _).trans hv)
  | cast signed width x ih =>
    rw [Expr.sort?] at h
    split at h
    · obtain ⟨t, ht, hs⟩ := Option.map_eq_some_iff.1 h
      subst hs
      rw [eval, dif_pos ‹_›]
      refine (ih ht).bind fun v _ => Sound.pure ?_
      cases signed <;> rfl
    · cases h
  | loadBits n a ih =>
    rw [Expr.sort?] at h
    split at h
    · cases h
      obtain ⟨h₀, h₈, ha⟩ := ‹_ ∧ _›
      refine Sound.bind_bits (ih ha) fun v hv => ?_
      refine (Sound.ofError (Q := fun _ => True) (busAddress_eq_ok hkey hv) trivial).bind fun a _ => ?_
      refine (load_sound vm.config a h₀ h₈ n.isLt).bind fun r hr => Sound.pure ?_
      exact congrArg _ hr
    · cases h

/-! ## Soundness of execution -/

theorem writeByte_sound (addr : Address) (b : UInt8) : Sound (writeByte addr b : Eval σ Unit) fun _ => True := by
  intro bus _
  show Satisfies _ _ (EStateM.adaptExcept _ (Bus.write8 addr b) bus)
  unfold EStateM.adaptExcept
  cases Bus.write8 addr b bus <;> trivial

theorem writeBytes_sound (addr : Address) (bytes : List UInt8) :
    Sound (writeBytes addr bytes : Eval σ Unit) fun _ => True := by
  induction bytes generalizing addr with
  | nil => exact Sound.pure trivial
  | cons b bytes ih => exact (writeByte_sound addr b).bind fun _ _ => ih (addr + 1)

theorem store_sound (config : VmConfig) (addr : Address) {v : Bits} (h : v.width % 8 = 0) :
    Sound (store config addr v : Eval σ Unit) fun _ => True := by
  unfold store
  rw [if_neg (not_not_intro h)]
  exact writeBytes_sound addr _

/-- The interpreter has the sorts of the sorting and the widths of its program counter and its addresses. -/
structure Typed (Γ : Sorting) (assigned : List String) (vm : Vm) : Prop where
  respects : vm.Respects Γ assigned
  memKey : vm.config.memKeyBits = 32
  pcBits : 0 < vm.config.pcBits
  pc : vm.pc.width = vm.config.pcBits

variable {Γ : Sorting} {assigned : List String} {vm : Vm}

theorem Typed.mono {fewer : List String} (h : vm.Typed Γ assigned) (hsub : ∀ n ∈ fewer, n ∈ assigned) :
    vm.Typed Γ fewer := by
  refine { h with respects := fun v s hv => h.respects v s ?_ }
  obtain ⟨scope, name⟩ := v
  cases scope with
  | global => exact hv
  | temp =>
    obtain ⟨hn, hs⟩ := Sorting.var_temp_eq_some.1 hv
    exact Sorting.var_temp_eq_some.2 ⟨hsub name hn, hs⟩

theorem Typed.replace (h : vm.Typed Γ assigned) {name : String} {value : Value}
    (hs : Γ.globals name = some value.sort) : (vm.replace name value).Typed Γ assigned := by
  refine { h with respects := fun v s hv => ?_ }
  obtain ⟨x, hx, hxs⟩ := h.respects v s hv
  obtain ⟨scope, n⟩ := v
  cases scope with
  | temp => exact ⟨x, hx, hxs⟩
  | global =>
    by_cases hn : n = name
    · subst hn
      refine ⟨value, ?_, Option.some.inj (hs.symm.trans hv)⟩
      rw [lookup_global_eq_ok] at hx ⊢
      rw [get?_replace, if_pos rfl, hx, Option.map_some]
    · refine ⟨x, ?_, hxs⟩
      rw [lookup_global_eq_ok] at hx ⊢
      rw [get?_replace, if_neg hn, hx]

theorem Typed.setTemp (h : vm.Typed Γ assigned) {name : String} {value : Value}
    (hs : Γ.temps name = some value.sort) :
    { vm with temps := (name, value) :: vm.temps }.Typed Γ ([name] ++ assigned) := by
  refine { h with respects := fun v s hv => ?_ }
  obtain ⟨scope, n⟩ := v
  cases scope with
  | global => exact h.respects ⟨.global, n⟩ s hv
  | temp =>
    obtain ⟨hmem, hn⟩ := Sorting.var_temp_eq_some.1 hv
    by_cases hname : n = name
    · subst hname
      exact ⟨value, by simp [lookup], Option.some.inj (hs.symm.trans hn)⟩
    · have hne : (n == name) = false := by simpa using hname
      have hmem : n ∈ assigned := (List.mem_cons.1 hmem).resolve_left hname
      obtain ⟨x, hx, hxs⟩ := h.respects ⟨.temp, n⟩ s (Sorting.var_temp_eq_some.2 ⟨hmem, hn⟩)
      refine ⟨x, ?_, hxs⟩
      simpa [lookup, List.lookup_cons, hne] using hx

/-- An assignment of the declared sort succeeds. -/
theorem assign_sound {v : Var} {e : Expr} {value : Value} (hs : Γ.declared v = some value.sort) :
    Meets (Typed Γ assigned) (assign v value) (fun _ => Typed Γ ((Effect.set v e).assigned ++ assigned))
      (fun f _ => f.IsBus) := by
  intro vm hvm
  obtain ⟨scope, name⟩ := v
  cases scope with
  | temp => exact hvm.setTemp hs
  | global =>
    obtain ⟨old, hold, hsort⟩ := hvm.respects ⟨.global, name⟩ _ hs
    rw [lookup_global_eq_ok] at hold
    show Satisfies _ _ (setGlobal name value vm)
    rw [setGlobal_eq, hold]
    dsimp only
    rw [Value.checkSort_eq_ok.2 hsort]
    exact hvm.replace hs

theorem jump_sound (target : Bits) :
    Meets (Typed Γ assigned) (jump target) (fun _ => Typed Γ assigned) (fun f _ => f.IsBus) := by
  intro vm hvm
  rw [jump_eq hvm.pcBits]
  exact { hvm with pc := rfl }

end Vm

namespace Machine

variable [Bus σ] {Γ : Sorting} {assigned : List String}

theorem value_sound {e : Expr} {s : ValueSort} (h : e.sort? Γ assigned = some s) :
    Meets (fun m : Machine σ => m.vm.Typed Γ assigned) (value e) (fun x m => x.sort = s ∧ m.vm.Typed Γ assigned)
      (fun f _ => f.IsBus) :=
  Sound.onBus fun vm hvm => vm.eval_sound hvm.respects hvm.memKey h

theorem address_sound {e : Expr} (h : e.sort? Γ assigned = some (.bits 32)) :
    Meets (fun m : Machine σ => m.vm.Typed Γ assigned) (address e) (fun _ m => True ∧ m.vm.Typed Γ assigned)
      (fun f _ => f.IsBus) := by
  refine Sound.onBus fun vm hvm => ?_
  refine Sound.bind_bits (vm.eval_sound hvm.respects hvm.memKey h) fun a ha => ?_
  exact Sound.ofError (Vm.busAddress_eq_ok hvm.memKey ha) trivial

mutual

/-- A well-sorted effect succeeds and leaves its variables assigned, unless the bus fails. -/
theorem exec_sound : ∀ {e : Effect} {assigned : List String}, e.Sorted Γ assigned →
    Meets (fun m : Machine σ => m.vm.Typed Γ assigned) (exec e) (fun _ m => m.vm.Typed Γ (e.assigned ++ assigned))
      (fun f _ => f.IsBus)
  | .nop, _, _ | .empty, _, _ => Meets.pure fun _ h => h
  | .set v e, _, ⟨s, he, hv⟩ => by
    refine Meets.bind (value_sound he) fun x => Meets.and_left fun hx => ?_
    subst hx
    exact (Vm.assign_sound hv).liftVm
  | .store a e, _, ⟨ha, w, he, hw⟩ => by
    refine Meets.bind (address_sound ha) fun addr => Meets.and_left fun _ => ?_
    refine Meets.bind (value_sound he) fun x => Meets.and_left fun hx => ?_
    obtain ⟨v, rfl, hv⟩ := Value.eq_bits_of_sort hx
    have hstore (vm : Vm) := Vm.store_sound (σ := σ) vm.config addr (v := v) (hv ▸ hw)
    exact (Sound.onBus fun vm _ => hstore vm).mono (fun _ h => h) (fun _ _ h => h.2) fun _ _ h => h
  | .seq es, _, hes => execAll_sound hes
  | .branch c t e, assigned, ⟨hc, ht, he⟩ => by
    refine Meets.bind (value_sound hc) fun x => Meets.and_left fun hx => ?_
    obtain ⟨b, rfl⟩ := Value.eq_bool_of_sort hx
    -- what both sides assign is assigned on each
    have hmem {n : String} (hn : n ∈ (Effect.branch c t e).assigned) : n ∈ t.assigned ∧ n ∈ e.assigned := by
      simpa [Effect.assigned, List.mem_filter] using hn
    cases b with
    | true =>
      refine (exec_sound ht).mono (fun _ h => h) (fun _ m h => h.mono fun n hn => ?_) fun _ _ h => h
      rw [List.mem_append] at hn ⊢
      exact hn.imp_left fun hn => (hmem hn).1
    | false =>
      refine (exec_sound he).mono (fun _ h => h) (fun _ m h => h.mono fun n hn => ?_) fun _ _ h => h
      rw [List.mem_append] at hn ⊢
      exact hn.imp_left fun hn => (hmem hn).2
  | .jmp target, _, ⟨s, hs⟩ => by
    refine Meets.bind (value_sound hs) fun x => Meets.and_left fun _ => ?_
    exact (Vm.jump_sound x.toBits).liftVm
  | .raise name, _, _ => Meets.onVm fun bus vm hvm => { hvm with }

theorem execAll_sound : ∀ {es : List Effect} {assigned : List String}, Effect.AllSorted Γ assigned es →
    Meets (fun m : Machine σ => m.vm.Typed Γ assigned) (execAll es)
      (fun _ m => m.vm.Typed Γ (Effect.allAssigned es ++ assigned)) (fun f _ => f.IsBus)
  | [], _, _ => Meets.pure fun _ h => h
  | e :: es, assigned, ⟨he, hes⟩ => by
    refine Meets.bind (exec_sound he) fun _ => ?_
    rw [Effect.allAssigned, List.append_assoc]
    exact execAll_sound hes

end

/-! ## One instruction -/

theorem begin_sound : Meets (Vm.Typed Γ []) Vm.begin (fun _ => Vm.Typed Γ []) (fun f _ => f.IsBus) := by
  refine fun vm hvm => { hvm with respects := fun v s hv => ?_ }
  obtain ⟨scope, n⟩ := v
  cases scope with
  | global => exact hvm.respects ⟨.global, n⟩ s hv
  | temp => exact absurd (Sorting.var_temp_eq_some.1 hv).1 List.not_mem_nil

theorem advance_sound (size : Nat) :
    Meets (Vm.Typed Γ assigned) (Vm.advance size) (fun _ => Vm.Typed Γ assigned) (fun f _ => f.IsBus) := by
  intro vm hvm
  rw [Vm.advance_eq hvm.pcBits hvm.pc]
  show Vm.Typed Γ assigned (if vm.jumped then vm else _)
  split
  · exact hvm
  · exact { hvm with pc := hvm.pc }

/-- An instruction whose meaning is well sorted succeeds, unless the bus fails. -/
theorem step_sound {lifted : Lifted} (h : ∀ e, lifted = .effect e → e.Sorted Γ []) (size : Nat) :
    Meets (fun m : Machine σ => m.vm.Typed Γ []) (step lifted size) (fun _ m => m.vm.Typed Γ [])
      (fun f _ => f.IsBus) := by
  refine Meets.bind begin_sound.liftVm fun _ => ?_
  cases lifted with
  | effect e =>
    refine Meets.bind (exec_sound (h e rfl)) fun _ => (advance_sound size).liftVm.mono ?_ (fun _ _ h => h) fun _ _ h => h
    exact fun m hm => hm.mono nofun
  | exception name =>
    refine Meets.bind (Q := fun _ (m : Machine σ) => m.vm.Typed Γ []) ?_ fun _ => (advance_sound size).liftVm
    exact Meets.onVm fun bus vm hvm => { hvm with }

end Machine
end SuperH
