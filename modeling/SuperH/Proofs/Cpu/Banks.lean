import SuperH.Proofs.Cpu.Address

/-!
# The two banks

R0 to R7 exist twice, and two rules choose between the copies: MD and RB for the register in use, RB alone for the other one.

* `slotAt_own`, `slotAt_inj` : every index but that of SR names one variable, and in privileged mode no two name the same;
* `State.copy` : that variable's name; `exec_setReg_own` : a register is set by setting it, which the register shows
  (`Shows.reads_replace_self`) and the others do not (`Shows.reads_replace_of_ne`);
* `banks_coherent` : reading and writing by index agree, in every state of the interpreter.
-/

namespace SuperH

namespace Cpu

open SuperH.Expr SuperH.Effect

/-! ## Indices -/

theorem slotAt_own : ∀ bank1 rb, ∀ index < regCount, index ≠ sr → slotAt bank1 rb index ≠ .status := by decide

/-- The copies in use and not in use are different ones if both rules go by RB. -/
theorem slotAt_nodup : ∀ rb, ((List.range regCount).map (slotAt rb rb)).Nodup := by decide

theorem slotAt_inj {rb : Bool} {i j : Nat} (hi : i < regCount) (hj : j < regCount) (h : slotAt rb rb i = slotAt rb rb j) :
    i = j := List.inj_on_of_nodup_map (slotAt_nodup rb) (List.mem_range.2 hi) (List.mem_range.2 hj) h

namespace State

variable (st : State) {i j : Nat} {name : WordVar}

/-- The variable of the copy that an index names. SR has none of its own. -/
def copy (index : Nat) : String :=
  match st.place index with
  | .own name => name
  | .status => "sr"

theorem copy_eq (h : st.place i = .own name) : st.copy i = name := by rw [copy, h]

theorem exists_place_own (hi : i < regCount) (hsr : i ≠ sr) : ∃ name, st.place i = .own name := by
  cases hplace : st.place i with
  | status => exact absurd hplace (slotAt_own _ _ i hi hsr)
  | own name => exact ⟨name, rfl⟩

/-- In privileged mode every index names a register of its own. -/
theorem place_inj (hmd : st.flag .md = true) (hi : i < regCount) (hj : j < regCount) (h : st.place i = st.place j) : i = j := by
  have hbank : st.bank1 = st.flag .rb := by rw [bank1, hmd, Bool.true_and]
  rw [place, place, hbank] at h
  exact slotAt_inj hi hj h

theorem copy_inj (hmd : st.flag .md = true) (hi : i < regCount) (hisr : i ≠ sr) (hj : j < regCount) (hjsr : j ≠ sr)
    (h : st.copy i = st.copy j) : i = j := by
  obtain ⟨name, hplace⟩ := st.exists_place_own hi hisr
  obtain ⟨name', hplace'⟩ := st.exists_place_own hj hjsr
  rw [st.copy_eq hplace, st.copy_eq hplace'] at h
  refine st.place_inj hmd hi hj ?_
  rw [hplace, hplace', Subtype.ext h]

/-- Which registers are named is up to the flags alone. -/
theorem place_setWord (v : BitVec 32) : (st.setWord name v).place i = st.place i := rfl

end State

/-! ## Writing -/

variable {x : Frame} {vm : Vm} {i : Nat} {name : WordVar} (v : BitVec 32)

/-- A register is set by setting the variable of the copy that its index names. -/
theorem exec_setReg_own (hx : Shows vm x) (h : x.place i = .own name) {e : Effect}
    (he : setReg i (.bits (.ofBitVec v word_pos)) = .ok e) {σ : Type} [Bus σ] (bus : σ) :
    Machine.exec e ⟨vm, bus⟩ = .ok () ⟨vm.replace name (.word v), bus⟩ := by
  obtain ⟨p, hp, rfl⟩ := setReg_eq_ok.1 he
  have hv : vm.eval (.bits (.ofBitVec v word_pos)) bus = .ok (.word v) bus := rfl
  rw [exec_pick hx, pick_of_storage hp, h]
  exact exec_setGlobal hv (hx.word name) rfl

theorem Shows.reads_replace_self (hx : Shows vm x) (hi : i < regCount) (h : x.place i = .own name) :
    (vm.replace name (.word v)).Reads i v := by
  have hnamed : (x.toState.setWord name v).named i = v := by
    rw [State.named, State.place_setWord, h]
    exact State.word_setWord_self ..
  have hreads := (hx.replace_word name v).reads hi
  change (vm.replace name (.word v)).Reads i ((x.toState.setWord name v).named i) at hreads
  rwa [hnamed] at hreads

theorem Shows.reads_replace_of_ne (hx : Shows vm x) (hi : i < regCount) (h : x.place i ≠ .own name) :
    (vm.replace name (.word v)).Reads i (x.toState.named i) := by
  have hnamed : (x.toState.setWord name v).named i = x.toState.named i := by
    rw [State.named, State.place_setWord]
    exact Slot.value_set_of_ne (s := .own name) _ _ h
  have hreads := (hx.replace_word name v).reads hi
  change (vm.replace name (.word v)).Reads i ((x.toState.setWord name v).named i) at hreads
  rwa [hnamed] at hreads

end Cpu

open Cpu

/-- There is a register for each index below 34, and for no other. Each but SR is a variable, which the state picks: to set the
register changes that variable and nothing else of the interpreter, no flag in particular, and the register then reads as it was
set. In privileged mode the other registers read as before, SR among them, since no two indices name the same copy: not those
of R0 to R7 and of the registers of the other bank, whatever RB is. -/
theorem banks_coherent {vm : Vm} (h : vm.SetUpBy (.derive Cpu.profile)) :
    (∀ index, regCount ≤ index → getReg index = .error (.invalidRegister index) ∧
      ∀ value, setReg index value = .error (.invalidRegister index)) ∧
    (∀ index < regCount, (∃ e, getReg index = .ok e) ∧ ∀ value, ∃ e, setReg index value = .ok e) ∧
    ∃ copy : Nat → String,
      (∀ i < regCount, i ≠ sr → (∃ w, vm.get? (copy i) = some (.word w) ∧ vm.Reads i w) ∧
        ∀ v : BitVec 32, ∃ e vm', setReg i (.bits (.ofBitVec v Expr.word_pos)) = .ok e ∧
          (∀ {σ : Type} [Bus σ] (bus : σ), Machine.exec e ⟨vm, bus⟩ = .ok () ⟨vm', bus⟩) ∧
          vm' = { vm with globals := vm'.globals } ∧ (∀ name, name ≠ copy i → vm'.get? name = vm.get? name) ∧
          (∀ flag : Flag, vm'.get? flag.var = vm.get? flag.var) ∧ vm'.Reads i v ∧
          (vm.flags .md = true → ∀ j < regCount, j ≠ i → ∃ w, vm.Reads j w ∧ vm'.Reads j w)) ∧
      (vm.flags .md = true → ∀ i < regCount, i ≠ sr → ∀ j < regCount, j ≠ sr → copy i = copy j → i = j) := by
  have hx := h.shows
  let st := vm.frame.toState
  refine ⟨fun index hindex => ⟨getReg_error hindex, setReg_error hindex⟩, fun index hindex => ⟨?_, exists_setReg index hindex⟩,
    st.copy, fun i hi hsr => ?_, fun hmd i hi hisr j hj hjsr => st.copy_inj hmd hi hisr hj hjsr⟩
  · obtain ⟨e, he, -⟩ := exists_getReg index hindex
    exact ⟨e, he⟩
  · obtain ⟨name, hplace⟩ := st.exists_place_own hi hsr
    have hnamed : st.named i = st.word name := congrArg (Slot.value st) hplace
    rw [st.copy_eq hplace]
    refine ⟨⟨st.word name, hx.word name, hnamed ▸ hx.reads hi⟩, fun v => ?_⟩
    obtain ⟨e, he⟩ := exists_setReg i hi (.bits (.ofBitVec v Expr.word_pos))
    have hrun {σ : Type} [Bus σ] (bus : σ) : Machine.exec e ⟨vm, bus⟩ = .ok () ⟨vm.replace name (.word v), bus⟩ :=
      exec_setReg_own v hx hplace he bus
    refine ⟨e, vm.replace name (.word v), he, hrun, rfl, fun other hother => ?_, fun flag => ?_,
      hx.reads_replace_self v hi hplace, fun hmd j hj hne => ?_⟩
    · rw [Shows.get?_replace (hx.word name), if_neg hother]
    · rw [Shows.get?_replace (hx.word name), if_neg (flagVar_ne flag name)]
    · have hapart : st.place j ≠ .own name := fun heq => hne (st.place_inj hmd hj hi (heq.trans hplace.symm))
      exact ⟨st.named j, hx.reads hj, hx.reads_replace_of_ne v hj hapart⟩

/-- In privileged mode with RB set, R3 is set and R3 of the other bank reads as before. -/
theorem banks_coherent_selected :
    let vm := ((Cpu.initialVm true).replace "sr_d" (.bool true)).replace "sr_r" (.bool true)
    let bus := LinearMemory.zeros 4
    vm.SetUpBy (.derive Cpu.profile) ∧ vm.flags .md = true ∧
      ∃ e vm', setReg 3 (.bits (.ofBitVec 7 Expr.word_pos)) = .ok e ∧ Machine.exec e ⟨vm, bus⟩ = .ok () ⟨vm', bus⟩ ∧
        vm'.Reads 3 7 ∧ ∃ w, vm.Reads 29 w ∧ vm'.Reads 29 w := by
  intro vm bus
  obtain ⟨before, hnew, hset⟩ := Cpu.setupBinding_eq true
  have hstable := Vm.SetUpBy.stable (.derive Cpu.profile)
  have hinitial := Vm.SetUpBy.of_setupBinding hset (Nat.succ_pos 31)
  have hprivileged := hstable.global trivial (hinitial.shows.flag .md) (rfl : _ = (Value.bool true).sort) hinitial
  have hvm : vm.SetUpBy (.derive Cpu.profile) :=
    hstable.global trivial (hprivileged.shows.flag .rb) (rfl : _ = (Value.bool true).sort) hprivileged
  have hmd : vm.flags .md = true := by decide +kernel
  obtain ⟨-, -, copy, hcopy, -⟩ := banks_coherent hvm
  obtain ⟨e, vm', he, hrun, -, -, -, hself, hothers⟩ := (hcopy 3 (by decide) (by decide)).2 7
  exact ⟨hvm, hmd, e, vm', he, hrun bus, hself, hothers hmd 29 (by decide) (by decide)⟩

end SuperH
