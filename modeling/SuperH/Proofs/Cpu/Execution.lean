import SuperH.Proofs.Cpu.State
import SuperH.Proofs.Cpu.Storage
import SuperH.Proofs.Vm.Eval
import SuperH.Proofs.Vm.Soundness

/-!
# Execution on states

* `Cpu.Evals x e v` : in every interpreter that shows `x` the expression `e` has the value `v`, on every memory;
* `Cpu.Runs x e y` : from every interpreter that shows `x` the effect `e` leads to one that shows `y`, and leaves the
  memory alone; `RunsAll` says so of a list of effects.

There is one rule for each form of an expression and of an effect, and for the registers and flags that are read and
written through them.
-/

namespace SuperH

namespace Cpu

open SuperH.Expr SuperH.Effect

/-- The expression has the value wherever the state shows. -/
structure Evals (x : Frame) (e : Expr) (v : Value) : Prop where
  eval : ∀ {σ : Type} [Bus σ] {vm : Vm} (bus : σ), Shows vm x → vm.eval e bus = .ok v bus

/-- The effect leads from one state to the other and leaves the memory alone. -/
structure Runs (x : Frame) (e : Effect) (y : Frame) : Prop where
  exec : ∀ {σ : Type} [Bus σ] {vm : Vm} (bus : σ), Shows vm x →
    ∃ vm', Machine.exec e ⟨vm, bus⟩ = .ok () ⟨vm', bus⟩ ∧ Shows vm' y

/-- The effects lead from one state to the other, one after the other. -/
inductive RunsAll : Frame → List Effect → Frame → Prop
  | nil {x : Frame} : RunsAll x [] x
  | cons {x y z : Frame} {e : Effect} {es : List Effect} : Runs x e y → RunsAll y es z → RunsAll x (e :: es) z

variable {x y : Frame} {e f c : Expr}

namespace Evals

/-! ## Expressions -/

theorem bool (b : Bool) : Evals x (.bool b) (.bool b) := ⟨fun _ _ => rfl⟩

theorem bits (v : Bits) : Evals x (.bits v) (.bits v) := ⟨fun _ _ => rfl⟩

theorem const {w : Nat} (v : Nat) (h : 0 < w) : Evals x (.const w v h) (.bits (.ofBitVec (BitVec.ofNat w v) h)) := by
  rw [Bits.ofBitVec_ofNat]
  exact bits _

theorem flag (flag : Flag) : Evals x flag.expr (.bool (x.flag flag)) := by
  constructor
  intro σ _ vm bus hx
  show Failure.ofError (vm.lookup ⟨.global, flag.var⟩) bus = _
  rw [Vm.lookup_global_eq_ok.2 (hx.flag flag)]
  rfl

theorem global (name : WordVar) : Evals x (global name) (.word (x.word name)) := by
  constructor
  intro σ _ vm bus hx
  show Failure.ofError (vm.lookup ⟨.global, name⟩) bus = _
  rw [Vm.lookup_global_eq_ok.2 (hx.word name)]
  rfl

theorem temp {name : String} {v : Value} (h : x.temps.lookup name = some v) : Evals x (temp name) v := by
  constructor
  intro σ _ vm bus hx
  have hlookup : vm.lookup ⟨.temp, name⟩ = .ok v := by
    rw [← hx.temps] at h
    simp only [Vm.lookup, h]
  show Failure.ofError (vm.lookup ⟨.temp, name⟩) bus = _
  rw [hlookup]
  rfl

theorem ite {b : Bool} {v : Value} (hc : Evals x c (.bool b)) (ht : b = true → Evals x e v) (he : b = false → Evals x f v) :
    Evals x (.ite c e f) v := by
  constructor
  intro σ _ vm bus hx
  refine (bind_of_ok (hc.eval bus hx)).trans ?_
  cases b with
  | true => exact (ht rfl).eval bus hx
  | false => exact (he rfl).eval bus hx

theorem not {b : Bool} (h : Evals x e (.bool b)) : Evals x (.not e) (.bool !b) :=
  ⟨fun bus hx => Vm.eval_not (h.eval bus hx)⟩

theorem logic (op : LogicOp) {a b : Bool} (he : Evals x e (.bool a)) (hf : Evals x f (.bool b)) :
    Evals x (.logic op e f) (.bool (op.apply a b)) := ⟨fun bus hx => Vm.eval_logic op (he.eval bus hx) (hf.eval bus hx)⟩

theorem and {a b : Bool} : Evals x e (.bool a) → Evals x f (.bool b) → Evals x (e.and f) (.bool (a && b)) := logic .and

theorem or {a b : Bool} : Evals x e (.bool a) → Evals x f (.bool b) → Evals x (e.or f) (.bool (a || b)) := logic .or

theorem xor {a b : Bool} : Evals x e (.bool a) → Evals x f (.bool b) → Evals x (e.xor f) (.bool (a ^^ b)) := logic .xor

theorem eqBool {a b : Bool} (he : Evals x e (.bool a)) (hf : Evals x f (.bool b)) :
    Evals x (e.eq f) (.bool (a == b)) := by
  constructor
  intro σ _ vm bus hx
  have hbits : decide (Bits.ofBool a = Bits.ofBool b) = (a == b) := by cases a <;> cases b <;> decide
  rw [← hbits]
  refine (bind_of_ok (he.eval bus hx)).trans ?_
  exact bind_of_ok (hf.eval bus hx)

/-! ## Operations of any width -/

section

variable {w : Nat} {h : 0 < w} {a b : BitVec w}

theorem msb (he : Evals x e (.bits (.ofBitVec a h))) : Evals x (.msb e) (.bool a.msb) :=
  ⟨fun bus hx => Vm.eval_msb (he.eval bus hx)⟩

theorem isZero (he : Evals x e (.bits (.ofBitVec a h))) : Evals x (.isZero e) (.bool (a == 0)) :=
  ⟨fun bus hx => Vm.eval_isZero (he.eval bus hx)⟩

theorem nonZero (he : Evals x e (.bits (.ofBitVec a h))) : Evals x e.nonZero (.bool (a != 0)) := he.isZero.not

theorem lsb (he : Evals x e (.bits (.ofBitVec a h))) : Evals x (.lsb e) (.bool (a.getLsbD 0)) := by
  constructor
  intro σ _ vm bus hx
  rw [← Bits.lsb_ofBitVec (h := h) a]
  exact bind_of_ok (he.eval bus hx)

/-! ### Comparisons -/

theorem eqBits (he : Evals x e (.bits (.ofBitVec a h))) (hf : Evals x f (.bits (.ofBitVec b h))) :
    Evals x (e.eq f) (.bool (decide (a = b))) := by
  constructor
  intro σ _ vm bus hx
  have hbits : decide (Bits.ofBitVec a h = Bits.ofBitVec b h) = decide (a = b) :=
    decide_eq_decide.2 ⟨fun heq => BitVec.eq_of_toNat_eq (by simpa using congrArg Bits.toNat heq), fun heq => heq ▸ rfl⟩
  rw [← hbits]
  refine (bind_of_ok (he.eval bus hx)).trans ((bind_of_ok (hf.eval bus hx)).trans ?_)
  show (Failure.ofError (Vm.requireSameWidth w w) >>= fun _ =>
    return .bool (decide (Bits.ofBitVec a h = Bits.ofBitVec b h)) : Eval σ Value) bus = _
  rw [Vm.requireSameWidth, if_pos rfl]
  rfl

/-- Every other comparison goes by the unsigned or the signed order. -/
theorem order {op : CmpOp} {o : Bool} (hop : op ≠ .eq) (ho : op.holds (compare a.toNat b.toNat) (compare a.toInt b.toInt) = o)
    (he : Evals x e (.bits (.ofBitVec a h))) (hf : Evals x f (.bits (.ofBitVec b h))) : Evals x (.cmp op e f) (.bool o) := by
  constructor
  intro σ _ vm bus hx
  rw [Vm.eval_cmp hop]
  refine (bind_of_ok (he.eval bus hx)).trans ((bind_of_ok (hf.eval bus hx)).trans ?_)
  show (Failure.ofError (Vm.requireSameWidth w w) >>= fun _ => do
    let unsigned ← (Bits.ofBitVec a h).ucmp (.ofBitVec b h)
    let signed ← (Bits.ofBitVec a h).scmp (.ofBitVec b h)
    return .bool (op.holds unsigned signed) : Eval σ Value) bus = _
  rw [Vm.requireSameWidth, if_pos rfl, Bits.ucmp_ofBitVec, Bits.scmp_ofBitVec, ← ho]
  rfl

theorem ult (he : Evals x e (.bits (.ofBitVec a h))) (hf : Evals x f (.bits (.ofBitVec b h))) :
    Evals x (e.ult f) (.bool (decide (a.toNat < b.toNat))) := by
  refine order (by decide) ?_ he hf
  rw [CmpOp.holds, Bool.eq_iff_iff, Ordering.isLT_iff_eq_lt, Nat.compare_eq_lt, decide_eq_true_iff]

theorem ugt (he : Evals x e (.bits (.ofBitVec a h))) (hf : Evals x f (.bits (.ofBitVec b h))) :
    Evals x (e.ugt f) (.bool (decide (b.toNat < a.toNat))) := by
  refine order (by decide) ?_ he hf
  rw [CmpOp.holds, Bool.eq_iff_iff, Ordering.isGT_iff_eq_gt, Nat.compare_eq_gt, decide_eq_true_iff]

theorem uge (he : Evals x e (.bits (.ofBitVec a h))) (hf : Evals x f (.bits (.ofBitVec b h))) :
    Evals x (e.uge f) (.bool (decide (b.toNat ≤ a.toNat))) := by
  refine order (by decide) ?_ he hf
  rw [CmpOp.holds, Bool.eq_iff_iff, Nat.isGE_compare, decide_eq_true_iff]

theorem sgt (he : Evals x e (.bits (.ofBitVec a h))) (hf : Evals x f (.bits (.ofBitVec b h))) :
    Evals x (e.sgt f) (.bool (decide (b.toInt < a.toInt))) := by
  refine order (by decide) ?_ he hf
  rw [CmpOp.holds, Bool.eq_iff_iff, Ordering.isGT_iff_eq_gt, Int.compare_eq_gt, decide_eq_true_iff]

theorem sge (he : Evals x e (.bits (.ofBitVec a h))) (hf : Evals x f (.bits (.ofBitVec b h))) :
    Evals x (e.sge f) (.bool (decide (b.toInt ≤ a.toInt))) := by
  refine order (by decide) ?_ he hf
  rw [CmpOp.holds, Bool.eq_iff_iff, Int.isGE_compare, decide_eq_true_iff]

/-! ### Arithmetic and shifts -/

theorem arith {v : BitVec w} {op : ArithOp} (hop : op.apply (.ofBitVec a h) (.ofBitVec b h) = .ok (.ofBitVec v h))
    (he : Evals x e (.bits (.ofBitVec a h))) (hf : Evals x f (.bits (.ofBitVec b h))) :
    Evals x (.arith op e f) (.bits (.ofBitVec v h)) := ⟨fun bus hx => Vm.eval_arith hop (he.eval bus hx) (hf.eval bus hx)⟩

theorem add (he : Evals x e (.bits (.ofBitVec a h))) (hf : Evals x f (.bits (.ofBitVec b h))) :
    Evals x (e.add f) (.bits (.ofBitVec (a + b) h)) := arith (Bits.add_ofBitVec a b) he hf

theorem sub (he : Evals x e (.bits (.ofBitVec a h))) (hf : Evals x f (.bits (.ofBitVec b h))) :
    Evals x (e.sub f) (.bits (.ofBitVec (a - b) h)) := arith (Bits.sub_ofBitVec a b) he hf

theorem mul (he : Evals x e (.bits (.ofBitVec a h))) (hf : Evals x f (.bits (.ofBitVec b h))) :
    Evals x (e.mul f) (.bits (.ofBitVec (a * b) h)) := arith (Bits.mul_ofBitVec a b) he hf

theorem bitAnd (he : Evals x e (.bits (.ofBitVec a h))) (hf : Evals x f (.bits (.ofBitVec b h))) :
    Evals x (e.bitAnd f) (.bits (.ofBitVec (a &&& b) h)) := arith (Bits.and_ofBitVec a b) he hf

theorem bitOr (he : Evals x e (.bits (.ofBitVec a h))) (hf : Evals x f (.bits (.ofBitVec b h))) :
    Evals x (e.bitOr f) (.bits (.ofBitVec (a ||| b) h)) := arith (Bits.or_ofBitVec a b) he hf

theorem bitXor (he : Evals x e (.bits (.ofBitVec a h))) (hf : Evals x f (.bits (.ofBitVec b h))) :
    Evals x (e.bitXor f) (.bits (.ofBitVec (a ^^^ b) h)) := arith (Bits.xor_ofBitVec a b) he hf

theorem shift {v : BitVec w} {op : ShiftOp} (hw : w ≤ 64) (hop : op.apply (.ofBitVec a h) b.toNat = .ofBitVec v h)
    (he : Evals x e (.bits (.ofBitVec a h))) (hf : Evals x f (.bits (.ofBitVec b h))) :
    Evals x (.shift op e f) (.bits (.ofBitVec v h)) := by
  constructor
  intro σ _ vm bus hx
  have hwidth : (Bits.ofBitVec a h).width < 2 ^ 64 := Nat.lt_of_le_of_lt hw (by decide)
  have hshift := Vm.eval_shift hwidth (he.eval bus hx) (hf.eval bus hx) op
  rwa [Value.toBits, Bits.toNat_ofBitVec, hop] at hshift

theorem shl (he : Evals x e (.bits (.ofBitVec a h))) (hf : Evals x f (.bits (.ofBitVec b h))) (hw : w ≤ 64 := by decide) :
    Evals x (e.shl f) (.bits (.ofBitVec (a <<< b.toNat) h)) := shift hw (Bits.shl_ofBitVec a _) he hf

theorem shr (he : Evals x e (.bits (.ofBitVec a h))) (hf : Evals x f (.bits (.ofBitVec b h))) (hw : w ≤ 64 := by decide) :
    Evals x (e.shr f) (.bits (.ofBitVec (a >>> b.toNat) h)) := shift hw (Bits.lshr_ofBitVec a _) he hf

theorem sar (he : Evals x e (.bits (.ofBitVec a h))) (hf : Evals x f (.bits (.ofBitVec b h))) (hw : w ≤ 64 := by decide) :
    Evals x (e.sar f) (.bits (.ofBitVec (a.sshiftRight b.toNat) h)) := shift hw (Bits.ashr_ofBitVec a _) he hf

/-- Words shifted by a number that is written down. -/
theorem shlConst {v : BitVec 32} (he : Evals x e (.word v)) (k : Nat) (hk : k < 2 ^ 32 := by decide) :
    Evals x (e.shl (word k)) (.word (v <<< k)) := by
  have hshifted : Evals x (e.shl (word k)) _ := he.shl (.const k word_pos)
  rwa [BitVec.toNat_ofNat, Nat.mod_eq_of_lt hk] at hshifted

theorem shrConst {v : BitVec 32} (he : Evals x e (.word v)) (k : Nat) (hk : k < 2 ^ 32 := by decide) :
    Evals x (e.shr (word k)) (.word (v >>> k)) := by
  have hshifted : Evals x (e.shr (word k)) _ := he.shr (.const k word_pos)
  rwa [BitVec.toNat_ofNat, Nat.mod_eq_of_lt hk] at hshifted

theorem cast {isSigned : Bool} {width : Nat} {v : BitVec width} {hpos : 0 < width}
    (hv : Vm.resize isSigned width hpos (.ofBitVec a h) = .ofBitVec v hpos) (he : Evals x e (.bits (.ofBitVec a h))) :
    Evals x (.cast isSigned width e) (.bits (.ofBitVec v hpos)) := ⟨fun bus hx => Vm.eval_cast hv (he.eval bus hx)⟩

theorem unsigned {width : Nat} (hpos : 0 < width) (he : Evals x e (.bits (.ofBitVec a h))) :
    Evals x (e.unsigned width) (.bits (.ofBitVec (a.setWidth width) hpos)) := cast (Bits.setWidth_ofBitVec a hpos) he

theorem signed {width : Nat} (hpos : 0 < width) (he : Evals x e (.bits (.ofBitVec a h))) :
    Evals x (e.signed width) (.bits (.ofBitVec (a.signExtend width) hpos)) := cast (Bits.signExtend_ofBitVec a hpos) he

/-! ## Carry and overflow -/

variable {res : Expr} {r : BitVec w} (hr : Evals x res (.bits (.ofBitVec r h))) (he : Evals x e (.bits (.ofBitVec a h)))
  (hf : Evals x f (.bits (.ofBitVec b h)))

include hr he hf

theorem addCarry : Evals x (.addCarry res e f) (.bool (SuperH.addCarry a.msb b.msb r.msb)) :=
  ⟨fun bus hx => Vm.eval_addCarry (hr.eval bus hx) (he.eval bus hx) (hf.eval bus hx)⟩

theorem addOverflow : Evals x (.addOverflow res e f) (.bool (SuperH.addOverflow a.msb b.msb r.msb)) :=
  ⟨fun bus hx => Vm.eval_addOverflow (hr.eval bus hx) (he.eval bus hx) (hf.eval bus hx)⟩

theorem subBorrow : Evals x (.subBorrow res e f) (.bool (SuperH.subBorrow a.msb b.msb r.msb)) :=
  ⟨fun bus hx => Vm.eval_subBorrow (hr.eval bus hx) (he.eval bus hx) (hf.eval bus hx)⟩

theorem subUnderflow : Evals x (.subUnderflow res e f) (.bool (SuperH.subUnderflow a.msb b.msb r.msb)) :=
  ⟨fun bus hx => Vm.eval_subUnderflow (hr.eval bus hx) (he.eval bus hx) (hf.eval bus hx)⟩

end

/-! ## Registers and flags -/

theorem flagWord (flag : Flag) : Evals x flag.word (.word (x.flagWord flag)) := by
  refine (Evals.flag flag).ite (fun h => ?_) fun h => ?_
  · rw [State.flagWord, h]
    exact Evals.const 1 word_pos
  · rw [State.flagWord, h]
    exact Evals.const 0 word_pos

theorem bank1Selected : Evals x bank1Selected (.bool x.bank1) := (flag .md).and (flag .rb)

end Evals

/-! ## General registers -/

/-- Where a general register lives. -/
def generalStorage (n : Fin 16) : Storage :=
  if n < bankedCount then .inUse (State.generalVar false n) (State.generalVar true n) else .own (State.generalVar false n)

theorem storage_general : ∀ n : Fin 16, storage n = .ok (generalStorage n) := by decide

theorem getReg_general (n : Fin 16) : getReg n = .ok (generalStorage n).read := by
  rw [getReg_eq, storage_general]
  rfl

theorem setReg_general (n : Fin 16) (value : Expr) : setReg n value = .ok ((generalStorage n).write value) := by
  rw [setReg_eq, storage_general]
  rfl

theorem generalVar_of_unbanked : ∀ n : Fin 16, ¬ n < bankedCount → ∀ bank1, State.generalVar bank1 n = State.generalVar false n := by
  decide

theorem Evals.reg (n : Fin 16) : Evals x (generalStorage n).read (.word (x.reg n)) := by
  unfold generalStorage State.reg
  split
  · refine Evals.bank1Selected.ite (fun h => ?_) fun h => ?_
    · rw [h]
      exact Evals.global _
    · rw [h]
      exact Evals.global _
  · rw [generalVar_of_unbanked n ‹_› x.bank1]
    exact Evals.global _

/-! ## Effects -/

theorem value_of_eval {σ : Type} [Bus σ] {vm : Vm} {v : Value} {bus : σ} (h : vm.eval e bus = .ok v bus) :
    Machine.value e ⟨vm, bus⟩ = .ok v ⟨vm, bus⟩ := by
  unfold Machine.value Machine.onBus
  dsimp only
  rw [h]

theorem exec_setGlobal {σ : Type} [Bus σ] {vm : Vm} {name : String} {v old : Value} {bus : σ}
    (h : vm.eval e bus = .ok v bus) (hold : vm.get? name = some old) (hs : old.sort = v.sort) :
    Machine.exec (.setGlobal name e) ⟨vm, bus⟩ = .ok () ⟨vm.replace name v, bus⟩ := by
  have hset : Vm.setGlobal name v vm = .ok () (vm.replace name v) := by
    rw [Vm.setGlobal_eq, hold]
    dsimp only
    rw [Value.checkSort_eq_ok.2 hs]
  refine (bind_of_ok (value_of_eval h)).trans ?_
  show Machine.onVm (Vm.setGlobal name v) ⟨vm, bus⟩ = _
  unfold Machine.onVm
  rw [hset]

/-- A branch is the side that its condition picks. -/
theorem exec_branch {σ : Type} [Bus σ] {vm : Vm} {b : Bool} {bus : σ} (h : vm.eval c bus = .ok (.bool b) bus) (t u : Effect) :
    Machine.exec (.branch c t u) ⟨vm, bus⟩ = Machine.exec (if b then t else u) ⟨vm, bus⟩ := by
  refine (bind_of_ok (value_of_eval h)).trans ?_
  cases b <;> rfl

theorem exec_setTemp {σ : Type} [Bus σ] {vm : Vm} {name : String} {v : Value} {bus : σ} (h : vm.eval e bus = .ok v bus) :
    Machine.exec (.setTemp name e) ⟨vm, bus⟩ = .ok () ⟨{ vm with temps := (name, v) :: vm.temps }, bus⟩ :=
  bind_of_ok (value_of_eval h)

theorem Shows.setTemp {vm : Vm} (hx : Shows vm x) (name : String) (v : Value) :
    Shows { vm with temps := (name, v) :: vm.temps } (x.setTemp name v) := { hx with temps := congrArg _ hx.temps }

namespace Runs

theorem setTemp {name : String} {v : Value} (h : Evals x e v) : Runs x (.setTemp name e) (x.setTemp name v) :=
  ⟨fun bus hx => ⟨_, exec_setTemp (h.eval bus hx), hx.setTemp name v⟩⟩

/-- A variable of the machine takes a value of the sort that it has. -/
theorem set {name : String} {v old : Value} (h : Evals x e v) (hold : ∀ {vm}, Shows vm x → vm.get? name = some old)
    (hs : old.sort = v.sort) (hy : ∀ {vm}, Shows vm x → Shows (vm.replace name v) y) : Runs x (.setGlobal name e) y := by
  constructor
  intro σ _ vm bus hx
  exact ⟨vm.replace name v, exec_setGlobal (h.eval bus hx) (hold hx) hs, hy hx⟩

end Runs

theorem Shows.get?_replace {vm : Vm} {name n : String} {v old : Value} (hold : vm.get? name = some old) :
    (vm.replace name v).get? n = if n = name then some v else vm.get? n := by
  rw [Vm.get?_replace, hold, Option.map_some]

theorem flagVar_ne : ∀ (flag : Flag) (name : WordVar), flag.var ≠ name := by
  have hall : ∀ f ∈ Flag.all, f.var ∉ wordNames := by decide
  intro flag name heq
  exact hall flag (by cases flag <;> decide) (heq ▸ name.2)

theorem flagVar_inj {f g : Flag} : f.var = g.var ↔ f = g := by
  cases f <;> cases g <;> decide

/-- Setting a flag's variable sets the flag. -/
theorem Shows.replace_flag {vm : Vm} (hx : Shows vm x) (flag : Flag) (b : Bool) :
    Shows (vm.replace flag.var (.bool b)) (x.setFlag flag b) := by
  refine ⟨fun name => ?_, fun f => ?_, hx.temps⟩
  · rw [Shows.get?_replace (hx.flag flag), if_neg (flagVar_ne flag name).symm]
    exact hx.word name
  · rw [Shows.get?_replace (hx.flag flag)]
    simp only [flagVar_inj]
    show _ = some (Value.bool ((x.toState.setFlag flag b).flag f))
    rw [State.flag_setFlag, hx.flag f]
    split <;> rfl

/-- Setting the variable of a word sets the word. -/
theorem Shows.replace_word {vm : Vm} (hx : Shows vm x) (name : WordVar) (v : BitVec 32) :
    Shows (vm.replace name (.word v)) (x.setWord name v) := by
  refine ⟨fun n => ?_, fun f => ?_, hx.temps⟩
  · rw [Shows.get?_replace (hx.word name), hx.word n]
    show _ = some (Value.word (Function.update x.word name v n))
    by_cases hn : n = name
    · rw [hn, if_pos rfl, Function.update_self]
    · rw [if_neg fun heq => hn (Subtype.ext heq), Function.update_of_ne hn]
  · rw [Shows.get?_replace (hx.word name), if_neg (flagVar_ne f name)]
    exact hx.flag f

namespace Runs

theorem assign {flag : Flag} {b : Bool} (h : Evals x e (.bool b)) : Runs x (flag.assign e) (x.setFlag flag b) :=
  set h (fun hx => hx.flag flag) rfl fun hx => hx.replace_flag flag b

theorem setWord {name : WordVar} {v : BitVec 32} (h : Evals x e (.word v)) :
    Runs x (.setGlobal name e) (x.setWord name v) :=
  set h (fun hx => hx.word name) rfl fun hx => hx.replace_word name v

theorem branch {b : Bool} {t : Effect} {u : Effect} (hc : Evals x c (.bool b)) (ht : b = true → Runs x t y)
    (hu : b = false → Runs x u y) : Runs x (.branch c t u) y := by
  constructor
  intro σ _ vm bus hx
  rw [exec_branch (hc.eval bus hx)]
  cases b with
  | true => exact (ht rfl).exec bus hx
  | false => exact (hu rfl).exec bus hx

theorem nop : Runs x .nop x := ⟨fun _ hx => ⟨_, rfl, hx⟩⟩

/-- Setting a general register sets the copy in use. -/
theorem setReg {n : Fin 16} {v : BitVec 32} (h : Evals x e (.word v)) :
    Runs x ((generalStorage n).write e) (x.setReg n v) := by
  show Runs x _ (x.setWord (State.generalVar x.bank1 n) v)
  unfold generalStorage
  split
  · refine branch Evals.bank1Selected (fun hb => ?_) fun hb => ?_
    · rw [hb]
      exact setWord h
    · rw [hb]
      exact setWord h
  · rw [generalVar_of_unbanked n ‹_› x.bank1]
    exact setWord h

end Runs

/-! ## Sequences -/

namespace RunsAll

variable {es : List Effect}

theorem exec {σ : Type} [Bus σ] {vm : Vm} (bus : σ) (h : RunsAll x es y) (hx : Shows vm x) :
    ∃ vm', Machine.execAll es ⟨vm, bus⟩ = .ok () ⟨vm', bus⟩ ∧ Shows vm' y := by
  induction h generalizing vm with
  | nil => exact ⟨vm, rfl, hx⟩
  | cons he _ ih =>
    obtain ⟨vm₁, hfirst, h₁⟩ := he.exec bus hx
    obtain ⟨vm₂, hrest, h₂⟩ := ih h₁
    exact ⟨vm₂, (bind_of_ok hfirst).trans hrest, h₂⟩

end RunsAll

section

variable {σ : Type} [Bus σ]

theorem execAll_append (es fs : List Effect) :
    (Machine.execAll (es ++ fs) : Run σ Unit) = Machine.execAll es >>= fun _ => Machine.execAll fs := by
  induction es with
  | nil => rfl
  | cons e es ih =>
    show (Machine.exec e >>= fun _ => Machine.execAll (es ++ fs)) =
      (Machine.exec e >>= fun _ => Machine.execAll es) >>= fun _ => Machine.execAll fs
    rw [ih, bind_assoc]

theorem execAll_singleton (e : Effect) : (Machine.execAll [e] : Run σ Unit) = Machine.exec e := bind_pure (Machine.exec e)

theorem execAll_parts (e : Effect) : (Machine.execAll e.parts : Run σ Unit) = Machine.exec e := by
  cases e with
  | seq es => rfl
  | _ => exact execAll_singleton _

/-- Flattening a sequence changes nothing about what it does. -/
theorem exec_sequence (es : List Effect) : (Machine.exec (.sequence es) : Run σ Unit) = Machine.execAll es := by
  show Machine.execAll (es.flatMap parts) = _
  induction es with
  | nil => rfl
  | cons e es ih =>
    rw [List.flatMap_cons, execAll_append, execAll_parts, ih]
    rfl

end

theorem Runs.sequence {es : List Effect} (h : RunsAll x es y) : Runs x (.sequence es) y := by
  constructor
  intro σ _ vm bus hx
  rw [exec_sequence]
  exact h.exec bus hx

end Cpu
end SuperH
