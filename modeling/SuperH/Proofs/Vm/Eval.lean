import SuperH.Cpu.Carry
import SuperH.Proofs.Bits.BitVec
import SuperH.Proofs.Run.Contract

/-!
# Evaluating expressions from their parts

One rule for each form: the value of an expression in an interpreter, on a memory, when its operands have values there.

* `eval_not`, `eval_logic`, `eval_msb`, `eval_isZero`, `eval_arith`, `eval_cast` : the operators, at every width;
* `shiftAmount_eq`, `eval_shift` : shifts, which move by the whole amount, however wide it is;
* `eval_arith_error`, `eval_isZero_error`, `eval_cast_error` : an operand that fails, which the expression then does, too;
* `eval_addCarry`, `eval_addOverflow`, `eval_subBorrow`, `eval_subUnderflow` : the rules for flags, which have the values that
  the rules on three truth values have.
-/

namespace SuperH.Vm

variable {σ : Type} [Bus σ] {vm : Vm} {bus bus' : σ} {e f res : Expr}

/-! ## Truth values -/

theorem eval_not {b : Bool} (h : vm.eval e bus = .ok (.bool b) bus) : vm.eval (.not e) bus = .ok (.bool !b) bus :=
  bind_of_ok h

theorem eval_logic (op : LogicOp) {a b : Bool} (he : vm.eval e bus = .ok (.bool a) bus)
    (hf : vm.eval f bus = .ok (.bool b) bus) : vm.eval (.logic op e f) bus = .ok (.bool (op.apply a b)) bus :=
  (bind_of_ok he).trans (bind_of_ok hf)

theorem eval_and {a b : Bool} : vm.eval e bus = .ok (.bool a) bus → vm.eval f bus = .ok (.bool b) bus →
    vm.eval (e.and f) bus = .ok (.bool (a && b)) bus := eval_logic .and

theorem eval_or {a b : Bool} : vm.eval e bus = .ok (.bool a) bus → vm.eval f bus = .ok (.bool b) bus →
    vm.eval (e.or f) bus = .ok (.bool (a || b)) bus := eval_logic .or

/-! ## Bit-vectors -/

section

variable {w : Nat} {h : 0 < w} {x y r : BitVec w}

theorem eval_msb (he : vm.eval e bus = .ok (.bits (.ofBitVec x h)) bus) :
    vm.eval (.msb e) bus = .ok (.bool x.msb) bus := by
  rw [← Bits.msb_ofBitVec (h := h) x]
  exact bind_of_ok he

theorem eval_isZero (he : vm.eval e bus = .ok (.bits (.ofBitVec x h)) bus) :
    vm.eval (.isZero e) bus = .ok (.bool (x == 0)) bus := by
  rw [← Bits.isZero_ofBitVec (h := h) x]
  exact bind_of_ok he

theorem eval_arith {op : ArithOp} (hop : op.apply (.ofBitVec x h) (.ofBitVec y h) = .ok (.ofBitVec r h))
    (he : vm.eval e bus = .ok (.bits (.ofBitVec x h)) bus) (hf : vm.eval f bus = .ok (.bits (.ofBitVec y h)) bus) :
    vm.eval (.arith op e f) bus = .ok (.bits (.ofBitVec r h)) bus := by
  refine (bind_of_ok he).trans ((bind_of_ok hf).trans ?_)
  show (Failure.ofError (requireSameWidth w w) >>= fun _ =>
    Failure.ofFault (op.apply (.ofBitVec x h) (.ofBitVec y h)) >>= fun v => return Value.bits v : Eval σ Value) bus = _
  rw [requireSameWidth, if_pos rfl, hop]
  rfl

theorem eval_cast {isSigned : Bool} {width : Nat} {v : BitVec width} {hpos : 0 < width}
    (hv : resize isSigned width hpos (.ofBitVec x h) = .ofBitVec v hpos)
    (he : vm.eval e bus = .ok (.bits (.ofBitVec x h)) bus) :
    vm.eval (.cast isSigned width e) bus = .ok (.bits (.ofBitVec v hpos)) bus := by
  show (if h : 0 < width then vm.eval e >>= fun v => return Value.bits (resize isSigned width h v.toBits)
    else throw (.error .zeroWidth) : Eval σ Value) bus = _
  rw [dif_pos hpos, bind_of_ok he, ← hv]
  rfl

/-! ## Operands that fail -/

variable {error : Failure VmError}

theorem eval_isZero_error (he : vm.eval e bus = .error error bus') : vm.eval (.isZero e) bus = .error error bus' :=
  bind_of_error he

/-- The operand on the left is evaluated first. -/
theorem eval_arith_error (op : ArithOp) (he : vm.eval e bus = .ok (.bits (.ofBitVec x h)) bus)
    (hf : vm.eval f bus = .error error bus') : vm.eval (.arith op e f) bus = .error error bus' := by
  have hbits : (Failure.ofError (Value.bits (.ofBitVec x h)).asBits : Eval σ Bits) bus = .ok (.ofBitVec x h) bus := rfl
  exact (bind_of_ok he).trans ((bind_of_ok hbits).trans (bind_of_error hf))

theorem eval_cast_error (isSigned : Bool) {width : Nat} (hpos : 0 < width) (he : vm.eval e bus = .error error bus') :
    vm.eval (.cast isSigned width e) bus = .error error bus' := by
  show (if h : 0 < width then vm.eval e >>= fun v => return Value.bits (resize isSigned width h v.toBits)
    else throw (.error .zeroWidth) : Eval σ Value) bus = _
  rw [dif_pos hpos]
  exact bind_of_error he

/-! ## Carry and overflow -/

variable (hr : vm.eval res bus = .ok (.bits (.ofBitVec r h)) bus) (he : vm.eval e bus = .ok (.bits (.ofBitVec x h)) bus)
  (hf : vm.eval f bus = .ok (.bits (.ofBitVec y h)) bus)

include hr he hf

theorem eval_addCarry : vm.eval (.addCarry res e f) bus = .ok (.bool (addCarry x.msb y.msb r.msb)) bus := by
  have hx := eval_msb he
  have hy := eval_msb hf
  have hr := eval_not (eval_msb hr)
  exact eval_or (eval_or (eval_and hx hy) (eval_and hr hy)) (eval_and hx hr)

theorem eval_addOverflow : vm.eval (.addOverflow res e f) bus = .ok (.bool (addOverflow x.msb y.msb r.msb)) bus := by
  have hx := eval_msb he
  have hy := eval_msb hf
  have hr := eval_msb hr
  exact eval_or (eval_and (eval_and (eval_not hr) hx) hy) (eval_and (eval_and hr (eval_not hx)) (eval_not hy))

theorem eval_subBorrow : vm.eval (.subBorrow res e f) bus = .ok (.bool (subBorrow x.msb y.msb r.msb)) bus := by
  have hx := eval_not (eval_msb he)
  have hy := eval_msb hf
  have hr := eval_msb hr
  exact eval_or (eval_or (eval_and hx hy) (eval_and hy hr)) (eval_and hr hx)

theorem eval_subUnderflow : vm.eval (.subUnderflow res e f) bus = .ok (.bool (subUnderflow x.msb y.msb r.msb)) bus := by
  have hx := eval_msb he
  have hy := eval_msb hf
  have hr := eval_msb hr
  exact eval_or (eval_and (eval_and (eval_not hr) hx) (eval_not hy)) (eval_and (eval_and hr (eval_not hx)) hy)

end

/-! ## Shifts -/

/-- From the width on, the amount of a shift makes no difference. -/
theorem apply_of_width_le (op : ShiftOp) {x : Bits} {j k : Nat} (hj : x.width ≤ j) (hk : x.width ≤ k) :
    op.apply x j = op.apply x k := by
  cases op with
  | left => simp only [ShiftOp.apply, Bits.shl, if_pos hj, if_pos hk]
  | right => simp only [ShiftOp.apply, Bits.lshr, if_pos hj, if_pos hk]
  | rightArith => simp only [ShiftOp.apply, Bits.ashr, if_pos hj, if_pos hk]

/-- An amount of more than 64 bits counts as the largest of 64 bits. -/
theorem shiftAmount_eq (amount : Bits) : shiftAmount amount = min amount.toNat (2 ^ 64 - 1) := by
  rw [shiftAmount, Bits.below?_two_pow]
  split
  · rw [Option.getD_some, Nat.min_eq_left (Nat.le_sub_one_of_lt ‹_›)]
  · rw [Option.getD_none, Nat.min_eq_right (by omega)]

theorem apply_shiftAmount (op : ShiftOp) {x : Bits} (hx : x.width < 2 ^ 64) (amount : Bits) :
    op.apply x (shiftAmount amount) = op.apply x amount.toNat := by
  rw [shiftAmount_eq]
  rcases Nat.le_total amount.toNat (2 ^ 64 - 1) with h | h
  · rw [Nat.min_eq_left h]
  · rw [Nat.min_eq_right h]
    exact apply_of_width_le op (by omega) (by omega)

/-- The operand moves by the value of the amount, which is a vector of any width or a truth value. An amount that counts as less
than it is moves out every bit all the same, as no operand has so many. -/
theorem eval_shift {bus'' : σ} {x : Bits} {n : Value} (hx : x.width < 2 ^ 64) (he : vm.eval e bus = .ok (.bits x) bus')
    (hf : vm.eval f bus' = .ok n bus'') (op : ShiftOp) :
    vm.eval (.shift op e f) bus = .ok (.bits (op.apply x n.toBits.toNat)) bus'' := by
  rw [← apply_shiftAmount op hx]
  exact (bind_of_ok he).trans (bind_of_ok hf)

end SuperH.Vm
