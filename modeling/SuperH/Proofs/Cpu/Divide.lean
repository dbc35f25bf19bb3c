import SuperH.Cpu.Divide
import SuperH.Proofs.Cpu.Status

/-!
# One step of a division, on states

* `Divide.next`, `Divide.moved` : the remainder after the divisor is added or subtracted, and the carry or borrow;
* `Divide.signed` : the remainder with its sign, of which flag Q is the highest bit;
* `runs_divideArm`, `runs_divideStep` : what the step does to a state;
* `signed_step` : the new remainder is twice the old one and the bit that comes in, less the divisor or more, whichever
  brings it closer to zero; it stays below the divisor in size;
* `division_invariant` : the same of an interpreter that runs the step.
-/

namespace SuperH.Cpu

open SuperH.Expr SuperH.Effect

namespace Divide

/-- The remainder after the divisor is added or subtracted. -/
def next (subtract : Bool) (n d : BitVec 32) : BitVec 32 := if subtract then n - d else n + d

/-- The carry of the addition or the borrow of the subtraction. -/
def moved (subtract : Bool) (n d : BitVec 32) : Bool :=
  if subtract then decide (n.toNat < (n - d).toNat) else decide ((n + d).toNat < n.toNat)

/-- The remainder moved up by one place, with flag T coming in. -/
def shifted (st : State) (n : BitVec 32) : BitVec 32 := n <<< 1 ||| st.flagWord .t

/-- The divisor is subtracted if the signs of remainder and divisor agree, and added if not. -/
def subtracts (st : State) : Bool := st.flag .q == st.flag .m

/-- The new remainder. -/
def remainder (st : State) (n d : BitVec 32) : BitVec 32 := next (subtracts st) (shifted st n) d

/-- The sign of the new remainder. -/
def sign (st : State) (n d : BitVec 32) : Bool := (n.msb ^^ moved (subtracts st) (shifted st n) d) ^^ st.flag .m

/-- The state with the new flags. -/
def flags (st : State) (n d : BitVec 32) : State :=
  (st.setFlag .q (sign st n d)).setFlag .t (sign st n d == st.flag .m)

end Divide

/-! ## The step as an effect -/

/-- All four ways of a step do the same to the remainder and to flag Q. -/
theorem runs_divideArm {x : Frame} {n d : BitVec 32} (subtract negated : Bool)
    (hn : x.temps.lookup "rem" = some (.word n)) (hd : x.temps.lookup "divisor" = some (.word d)) :
    Runs x (divideArm subtract negated)
      ((((x.setTemp "tmp0" (.word n)).setTemp "rem" (.word (Divide.next subtract n d))).setTemp "tmp1"
        (.bool (Divide.moved subtract n d))).setFlag .q ((x.flag .q ^^ Divide.moved subtract n d) ^^ negated)) := by
  let x₁ := x.setTemp "tmp0" (.word n)
  let x₂ := x₁.setTemp "rem" (.word (Divide.next subtract n d))
  let x₃ := x₂.setTemp "tmp1" (.bool (Divide.moved subtract n d))
  have hrem : Evals x₁ (temp "rem") (.word n) := .temp hn
  have hdivisor : Evals x₁ (temp "divisor") (.word d) := .temp hd
  have hnext : Evals x₁ ((if subtract then Expr.sub else Expr.add) (temp "rem") (temp "divisor"))
      (.word (Divide.next subtract n d)) := by
    cases subtract
    · exact hrem.add hdivisor
    · exact hrem.sub hdivisor
  have hmoved : Evals x₂ ((if subtract then ugt else ult) (temp "rem") (temp "tmp0"))
      (.bool (Divide.moved subtract n d)) := by
    have hnew : Evals x₂ (temp "rem") (.word (Divide.next subtract n d)) := .temp rfl
    have hold : Evals x₂ (temp "tmp0") (.word n) := .temp rfl
    cases subtract
    · exact hnew.ult hold
    · exact hnew.ugt hold
  have htmp : Evals x₃ (temp "tmp1") (.bool (Divide.moved subtract n d)) := .temp rfl
  have harm : Runs x₃ (.branch Flag.q.expr (Flag.q.assign (if negated then temp "tmp1" else (temp "tmp1").not))
      (Flag.q.assign (if negated then (temp "tmp1").not else temp "tmp1")))
      (x₃.setFlag .q ((x₃.flag .q ^^ Divide.moved subtract n d) ^^ negated)) := by
    refine .branch (.flag .q) (fun hset => .assign ?_) fun hclear => .assign ?_
    · rw [hset, Bool.true_xor]
      cases negated
      · exact Bool.xor_false _ ▸ htmp.not
      · exact (Bool.xor_true _).trans (Bool.not_not _) ▸ htmp
    · rw [hclear, Bool.false_xor]
      cases negated
      · exact Bool.xor_false _ ▸ htmp
      · exact Bool.xor_true _ ▸ htmp.not
  unfold divideArm
  refine .sequence (.cons (.setTemp (.temp hn)) (.cons (.setTemp hnext) (.cons (.setTemp hmoved) (.cons ?_ .nil))))
  cases negated
  · exact harm
  · exact harm

/-- A step leaves the new remainder in `rem` and sets the flags. -/
theorem runs_divideStep {x : Frame} {remainder divisor : Expr} {n d : BitVec 32}
    (hd : Evals (x.setTemp "old_q" (.bool (x.flag .q))) divisor (.word d))
    (hn : Evals ((x.setTemp "old_q" (.bool (x.flag .q))).setTemp "divisor" (.word d)) remainder (.word n)) :
    ∃ y, Runs x (divideStep remainder divisor) y ∧
      y.temps.lookup "rem" = some (.word (Divide.remainder x.toState n d)) ∧ y.toState = Divide.flags x.toState n d := by
  let x₁ := (x.setTemp "old_q" (.bool (x.flag .q))).setTemp "divisor" (.word d)
  let x₂ := (x₁.setTemp "rem" (.word n)).setFlag .q n.msb
  let x₃ := x₂.setTemp "rem" (.word (Divide.shifted x.toState n))
  let x₄ := (((x₃.setTemp "tmp0" (.word (Divide.shifted x.toState n))).setTemp "rem"
    (.word (Divide.remainder x.toState n d))).setTemp "tmp1"
    (.bool (Divide.moved (Divide.subtracts x.toState) (Divide.shifted x.toState n) d))).setFlag .q (Divide.sign x.toState n d)
  have hshifted : Evals x₂ (((temp "rem").shl (const 32 1)).bitOr Flag.t.word) (.word (Divide.shifted x.toState n)) := by
    have hrem : Evals x₂ (temp "rem") (.word n) := .temp rfl
    exact (hrem.shl (.const 1 word_pos)).bitOr (.flagWord .t)
  have harm : Runs x₃ (divideArm (Divide.subtracts x.toState) (x.flag .m)) x₄ := runs_divideArm _ _ rfl rfl
  have hold : Evals x₃ (temp "old_q") (.bool (x.flag .q)) := .temp rfl
  have hm : Evals x₃ Flag.m.expr (.bool (x.flag .m)) := .flag .m
  have hbranch : Runs x₃ (.branch (temp "old_q")
      (.branch Flag.m.expr (divideArm true true) (divideArm false false))
      (.branch Flag.m.expr (divideArm false true) (divideArm true false))) x₄ := by
    unfold Divide.subtracts at harm
    refine .branch hold (fun hq => .branch hm (fun hm => ?_) fun hm => ?_) fun hq => .branch hm (fun hm => ?_) fun hm => ?_
    all_goals
      rw [hq, hm] at harm
      exact harm
  refine ⟨_, .sequence (.cons (.setTemp (.flag .q)) (.cons (.setTemp hd) (.cons (.setTemp hn)
    (.cons (.assign (.msb (.temp rfl))) (.cons (.setTemp hshifted) (.cons hbranch
    (.cons (.assign (.eqBool (.flag .q) (.flag .m))) .nil))))))), rfl, ?_⟩
  show ((x.toState.setFlag .q n.msb).setFlag .q (Divide.sign x.toState n d)).setFlag .t _ = _
  rw [State.setFlag_setFlag]
  rfl

/-! ## The step as arithmetic -/

namespace Divide

/-- A number of 33 bits in two's complement, of which the highest bit is apart. -/
def signed (negative : Bool) (n : BitVec 32) : Int := n.toNat - 2 ^ 32 * negative.toNat

theorem natAbs_signed (negative : Bool) (n : BitVec 32) :
    ((signed negative n).natAbs : Int) = if negative then (2 ^ 32 - n.toNat : Int) else (n.toNat : Int) := by
  have hn := n.isLt
  unfold signed
  cases negative
  · rw [Bool.toNat_false, if_neg Bool.false_ne_true]
    omega
  · rw [Bool.toNat_true, if_pos rfl]
    omega

theorem toNat_next_sub (n d : BitVec 32) :
    ((next true n d).toNat : Int) = n.toNat - d.toNat + 2 ^ 32 * (moved true n d).toNat := by
  have hn := n.isLt
  have hd := d.isLt
  have hnext : (next true n d).toNat = (2 ^ 32 - d.toNat + n.toNat) % 2 ^ 32 := BitVec.toNat_sub ..
  have hmoved : moved true n d = decide (n.toNat < (next true n d).toNat) := rfl
  rw [hmoved]
  by_cases h : n.toNat < (next true n d).toNat
  · rw [decide_eq_true h, Bool.toNat_true]
    omega
  · rw [decide_eq_false h, Bool.toNat_false]
    omega

theorem toNat_next_add (n d : BitVec 32) :
    ((next false n d).toNat : Int) = n.toNat + d.toNat - 2 ^ 32 * (moved false n d).toNat := by
  have hn := n.isLt
  have hd := d.isLt
  have hnext : (next false n d).toNat = (n.toNat + d.toNat) % 2 ^ 32 := BitVec.toNat_add ..
  have hmoved : moved false n d = decide ((next false n d).toNat < n.toNat) := rfl
  rw [hmoved]
  by_cases h : (next false n d).toNat < n.toNat
  · rw [decide_eq_true h, Bool.toNat_true]
    omega
  · rw [decide_eq_false h, Bool.toNat_false]
    omega

theorem toNat_xor_xor (a b c : Bool) : ((a ^^ b) ^^ c).toNat = (a.toNat + b.toNat + c.toNat) % 2 := by
  cases a <;> cases b <;> cases c <;> rfl

theorem toNat_shifted (st : State) (n : BitVec 32) :
    ((shifted st n).toNat : Int) = 2 * n.toNat + (st.flag .t).toNat - 2 ^ 32 * n.msb.toNat := by
  have hn := n.isLt
  have ht := Bool.toNat_le (st.flag .t)
  rw [shifted, State.toNat_shl_or_flagWord, BitVec.msb_eq_decide]
  by_cases h : 2 ^ (32 - 1) ≤ n.toNat
  · rw [decide_eq_true h, Bool.toNat_true]
    omega
  · rw [decide_eq_false h, Bool.toNat_false]
    omega

/-- The remainder is smaller than the divisor in size, or is the divisor's negation. -/
def InRange (r d : Int) : Prop := -(d.natAbs : Int) ≤ r ∧ r < d.natAbs

/-- Twice the remainder and the bit that comes in, less the divisor or more. -/
def exact (st : State) (n d : BitVec 32) : Int :=
  2 * signed (st.flag .q) n + (st.flag .t).toNat -
    (if subtracts st then signed (st.flag .m) d else -signed (st.flag .m) d)

/-- The new remainder is right as far as 33 bits can tell. -/
theorem exists_signed_eq (st : State) (n d : BitVec 32) :
    ∃ k, signed (sign st n d) (remainder st n d) = exact st n d + 2 ^ 33 * k := by
  have hshifted := toNat_shifted st n
  obtain ⟨j, hsign⟩ : ∃ j, n.msb.toNat + (moved (subtracts st) (shifted st n) d).toNat + (st.flag .m).toNat =
      (sign st n d).toNat + 2 * j := by
    rw [sign, toNat_xor_xor]
    exact ⟨_, (Nat.mod_add_div _ 2).symm⟩
  unfold exact signed remainder
  cases hsub : subtracts st with
  | true =>
    have hnext := toNat_next_sub (shifted st n) d
    rw [hsub] at hsign
    refine ⟨(st.flag .q).toNat - n.msb.toNat - (st.flag .m).toNat + j, ?_⟩
    rw [if_pos rfl]
    omega
  | false =>
    have hnext := toNat_next_add (shifted st n) d
    rw [hsub] at hsign
    refine ⟨(st.flag .q).toNat - n.msb.toNat - (moved false (shifted st n) d).toNat + j, ?_⟩
    rw [if_neg Bool.false_ne_true]
    omega

/-- The divisor's sign and the remainder's say which way leads closer to zero. -/
theorem inRange_exact (st : State) (n d : BitVec 32) (h : InRange (signed (st.flag .q) n) (signed (st.flag .m) d)) :
    InRange (exact st n d) (signed (st.flag .m) d) := by
  have hn := n.isLt
  have hd := d.isLt
  have ht := Bool.toNat_le (st.flag .t)
  unfold InRange at h ⊢
  rw [natAbs_signed] at h ⊢
  unfold exact subtracts
  unfold signed at *
  cases hq : st.flag .q <;> cases hm : st.flag .m <;>
    simp only [hq, hm, Bool.toNat_true, Bool.toNat_false, BEq.rfl, Bool.false_beq, Bool.true_beq, Bool.not_true,
      if_true, if_false, Bool.false_eq_true] at h ⊢
  all_goals constructor <;> omega

/-- Whichever sign the remainder has, a step doubles it, takes the bit in, and brings it closer to zero by the divisor;
it does not leave the divisor's range. -/
theorem signed_step (st : State) (n d : BitVec 32) (h : InRange (signed (st.flag .q) n) (signed (st.flag .m) d)) :
    signed (sign st n d) (remainder st n d) = exact st n d ∧ InRange (exact st n d) (signed (st.flag .m) d) := by
  have hrange := inRange_exact st n d h
  refine ⟨?_, hrange⟩
  obtain ⟨k, hk⟩ := exists_signed_eq st n d
  have hd := d.isLt
  have hr := (remainder st n d).isLt
  have hs := Bool.toNat_le (sign st n d)
  unfold InRange at hrange
  rw [natAbs_signed] at hrange
  unfold signed at hk ⊢
  -- both are numbers of 33 bits, so they cannot differ by a multiple of `2 ^ 33`
  split at hrange <;> omega

end Divide

/-! ## The step on an interpreter -/

open Divide

/-- From any state of the machine, and for any remainder and divisor in range, a step doubles the remainder, takes T in, and
subtracts the divisor if Q and M agree and adds it if not. The remainder stays in range. M keeps the sign of the divisor, and T
says whether the sign of the remainder is the same. -/
theorem division_invariant {vm : Vm} (h : vm.SetUpBy (.derive profile)) {n d : BitVec 32}
    (hrange : InRange (signed (vm.flags .q) n) (signed (vm.flags .m) d)) {σ : Type} [Bus σ] (bus : σ) :
    let R := signed (vm.flags .q) n
    let D := signed (vm.flags .m) d
    ∃ vm' rem, Machine.exec (divideStep (.bits (.ofBitVec n word_pos)) (.bits (.ofBitVec d word_pos))) ⟨vm, bus⟩ =
        .ok () ⟨vm', bus⟩ ∧
      vm'.SetUpBy (.derive profile) ∧ vm'.lookup ⟨.temp, "rem"⟩ = .ok (.word rem) ∧
      let R' := signed (vm'.flags .q) rem
      R' = (if vm.flags .q = vm.flags .m then 2 * R + (vm.flags .t).toNat - D else 2 * R + (vm.flags .t).toNat + D) ∧
      InRange R' D ∧ vm'.flags .m = vm.flags .m ∧ (vm'.flags .t = true ↔ vm'.flags .q = vm.flags .m) := by
  intro R D
  let st := vm.frame.toState
  obtain ⟨y, hruns, hrem, hstate⟩ := runs_divideStep (x := vm.frame) (.bits (.ofBitVec d word_pos)) (.bits (.ofBitVec n word_pos))
  obtain ⟨vm', hexec, hvm'⟩ := hruns.exec bus h.shows
  have hkeeps := Machine.exec_keeps (σ := σ) Policy.any_refutes (Vm.SetUpBy.stable (.derive profile)).closed
    (divideStep (.bits (.ofBitVec n word_pos)) (.bits (.ofBitVec d word_pos))).within_any
  have hflags : vm'.flags = (flags st n d).flag := (Vm.flags_eq hvm'.flag).trans (congrArg State.flag hstate)
  have hq : vm'.flags .q = sign st n d := congrFun hflags .q
  have hm : vm'.flags .m = vm.flags .m := congrFun hflags .m
  have ht : vm'.flags .t = (sign st n d == vm.flags .m) := congrFun hflags .t
  obtain ⟨hstep, hrange'⟩ := signed_step st n d hrange
  have hexact : exact st n d =
      if vm.flags .q = vm.flags .m then 2 * R + (vm.flags .t).toNat - D else 2 * R + (vm.flags .t).toNat + D := by
    unfold exact subtracts
    show 2 * R + (vm.flags .t).toNat - (if vm.flags .q == vm.flags .m then D else -D) = _
    by_cases hqm : vm.flags .q = vm.flags .m
    · rw [if_pos hqm, if_pos (beq_iff_eq.2 hqm)]
    · rw [if_neg hqm, if_neg (fun heq => hqm (beq_iff_eq.1 heq)), Int.sub_neg]
  refine ⟨vm', remainder st n d, hexec, hkeeps.of_ok hexec h, ?_, ?_, ?_, hm, ?_⟩
  · rw [← hvm'.temps] at hrem
    simp only [Vm.lookup, hrem]
    rfl
  · rw [hq, hstep, hexact]
  · rw [hq, hstep]
    exact hrange'
  · rw [hq, ht, beq_iff_eq]

/-- A remainder of -3 with a divisor of 2 ^ 32 - 5, which is added. -/
theorem division_invariant_negative :
    let vm := (initialVm true).replace "sr_q" (.bool true)
    let bus := LinearMemory.zeros 0
    ∃ vm' rem, Machine.exec (divideStep (.const 32 0xfffffffd) (.const 32 0xfffffffb)) ⟨vm, bus⟩ = .ok () ⟨vm', bus⟩ ∧
      vm'.lookup ⟨.temp, "rem"⟩ = .ok (.word rem) ∧ signed (vm'.flags .q) rem = 0xfffffff5 ∧ vm'.flags .t = true := by
  intro vm bus
  obtain ⟨before, hnew, hset⟩ := setupBinding_eq true
  have hold : (initialVm true).get? "sr_q" = some (.bool false) := by decide +kernel
  have hvm : vm.SetUpBy (.derive profile) :=
    (Vm.SetUpBy.stable (.derive profile)).global trivial hold rfl (.of_setupBinding hset (pcBits_pos true))
  have hq : vm.flags .q = true := by decide +kernel
  have hm : vm.flags .m = false := by decide +kernel
  have ht : vm.flags .t = false := by decide +kernel
  clear_value vm
  have hrange : InRange (signed (vm.flags .q) 0xfffffffd) (signed (vm.flags .m) 0xfffffffb) := by
    rw [hq, hm]
    exact ⟨by decide, by decide⟩
  obtain ⟨vm', rem, hexec, -, hrem, hstep, -, -, ht'⟩ := division_invariant hvm hrange bus
  have hsum : signed (vm'.flags .q) rem = 0xfffffff5 := by
    rw [hstep, hq, hm, ht]
    rfl
  have hq' : vm'.flags .q = false := by
    have hrem := rem.isLt
    cases hcase : vm'.flags .q with
    | false => rfl
    | true =>
      rw [hcase, Divide.signed, Bool.toNat_true] at hsum
      omega
  exact ⟨vm', rem, hexec, hrem, hsum, ht'.2 (hq'.trans hm.symm)⟩

end SuperH.Cpu
