import SuperH.Proofs.Cpu.Address
import SuperH.Proofs.Cpu.Carry
import SuperH.Proofs.Cpu.Divide
import SuperH.Proofs.Session.Transforms

/-!
# Instructions on general registers

What MOV, XOR, ROTCL, SHLL16, EXTU, ADDC, SUBC, DIV0U, DIV0S and DIV1 do to the state when their operands are general
registers, whatever the state is: one function on states for each, and a proof that the instruction transforms states so.

`Insn.plain` leaves out of an instruction what does not matter where its operands are registers (`sameMeaning_onRegs`).
`Lift.move_eq` is for operands in memory, too.
-/

namespace SuperH

open SuperH.Expr SuperH.Effect SuperH.Cpu

/-- An instruction on general registers. -/
def Insn.onRegs (mnemonic : Mnemonic) (regs : List (Fin 16)) : Insn where
  mnemonic
  operands := regs.map fun n => .reg n

/-- An instruction on the low halves of general registers. -/
def Insn.onHalves (mnemonic : Mnemonic) (regs : List (Fin 16)) : Insn where
  mnemonic
  operands := regs.map fun n : Fin 16 => .reg n
  size := .word

/-! ## Operands -/

namespace Context

variable {cx : Context} {index : Nat} {n : Fin 16}

theorem read_of_operand {operand : Operand} (ho : cx.operand index = .ok operand) (size : AccessSize) :
    cx.read index size = Cpu.read operand size cx.pc := by
  unfold read
  rw [ho]
  rfl

theorem read_eq (ho : cx.operand index = .ok (.reg n)) (hs : cx.insn.size = .unsized) :
    cx.read index = .ok { value := (generalStorage n).read } := by
  rw [read_of_operand ho, hs]
  unfold Cpu.read
  dsimp only
  rw [getReg_general]
  rfl

theorem value_eq (ho : cx.operand index = .ok (.reg n)) (hs : cx.insn.size = .unsized) :
    cx.value index = .ok (generalStorage n).read := by
  unfold value
  rw [read_eq ho hs]
  rfl

theorem write_eq (ho : cx.operand index = .ok (.reg n)) (hs : cx.insn.size = .unsized) (e : Expr) :
    cx.write index e = .ok ((generalStorage n).write e) := by
  unfold write
  rw [ho, hs]
  exact setReg_general n e

/-- A register is accessed as a whole also at its own size. -/
theorem value_long (ho : cx.operand index = .ok (.reg n)) : cx.value index .long = .ok (generalStorage n).read := by
  unfold value
  rw [read_of_operand ho]
  unfold Cpu.read
  dsimp only
  rw [getReg_general]
  rfl

theorem write_long (ho : cx.operand index = .ok (.reg n)) (e : Expr) :
    cx.write index e .long = .ok ((generalStorage n).write e) := by
  unfold write
  rw [ho]
  exact setReg_general n e

end Context

/-- The meaning of an instruction that needs no privilege. -/
theorem lift_eq {insn : Insn} {e : Effect} (pc : Nat) (privileged : Bool) (hp : Lift.needsPrivilege ⟨insn, pc⟩ = false)
    (h : Lift.effect ⟨insn, pc⟩ = .ok e) : lift insn pc privileged = .ok (.effect e) := by
  unfold lift
  dsimp only
  rw [hp, h]
  rfl

/-- A copy is made of reading the source and writing the target. -/
theorem Lift.move_eq {cx : Context} {source target : Operand} {r : OperandRead} {e : Effect}
    (hs : cx.operand 0 = .ok source) (ht : cx.operand 1 = .ok target) (hread : cx.read 0 = .ok r)
    (hwrite : cx.write 1 r.value = .ok e) : Lift.move cx = .ok (around r.pre e (postOfMove source target r.post)) := by
  unfold Lift.move
  rw [hread]
  show (do let target ← cx.write 1 r.value; _ : Build Effect) = _
  rw [hwrite, hs, ht]
  rfl

/-! ## Access sizes -/

/-- The access size tells several forms of the instruction apart. -/
def Mnemonic.sized : Mnemonic → Bool
  | .swap | .exts | .extu | .mac => true
  | _ => false

/-- The instruction without the word that it was decoded from, and without a size where that is the size of a register. -/
def Insn.plain (insn : Insn) : Insn :=
  { insn with opcode := 0, size := if insn.size = .long then .unsized else insn.size }

/-- A register is accessed as a whole without a size and at its own size. -/
theorem Insn.plain_onRegs {mnemonic : Mnemonic} {regs : List (Fin 16)} {size : AccessSize} (hsize : size ∈ [.unsized, .long])
    (opcode : Nat) : Insn.plain { Insn.onRegs mnemonic regs with size, opcode } = .onRegs mnemonic regs := by
  simp only [List.mem_cons, List.not_mem_nil, or_false] at hsize
  rcases hsize with rfl | rfl <;> rfl

namespace Cpu

variable {insn : Insn} {mnemonic : Mnemonic} {regs : List (Fin 16)}

/-- Registers are accessed as a whole also at their own size. -/
theorem lift_long (hm : mnemonic.sized = false) (regs : List (Fin 16)) (pc : Nat) (privileged : Bool) :
    lift { Insn.onRegs mnemonic regs with size := .long } pc privileged = lift (.onRegs mnemonic regs) pc privileged := by
  match regs with
  | [] => cases mnemonic <;> first | rfl | cases hm
  | [m] => cases mnemonic <;> first | rfl | cases hm
  | m :: n :: regs => cases mnemonic <;> first | rfl | cases hm

theorem sameMeaning_onRegs (hi : mnemonic ≠ .invalid) (hm : mnemonic.sized = false) (h : insn.plain = .onRegs mnemonic regs) :
    SameMeaning insn (.onRegs mnemonic regs) := by
  obtain ⟨m, operands, size, opcode⟩ := insn
  obtain ⟨rfl, rfl, hsize, -⟩ := Insn.mk.inj h
  intro pc privileged
  rw [← lift_withoutOpcode hi]
  by_cases hlong : size = .long
  · rw [hlong]
    exact lift_long hm regs pc privileged
  · obtain rfl : size = .unsized := (if_neg hlong).symm.trans hsize
    rfl

theorem sameMeaning_onHalves (hi : mnemonic ≠ .invalid) (h : insn.plain = .onHalves mnemonic regs) :
    SameMeaning insn (.onHalves mnemonic regs) := by
  obtain ⟨m, operands, size, opcode⟩ := insn
  obtain ⟨rfl, rfl, hsize, -⟩ := Insn.mk.inj h
  intro pc privileged
  rw [← lift_withoutOpcode hi]
  by_cases hlong : size = .long
  · cases (if_pos hlong).symm.trans hsize
  · obtain rfl : size = .word := (if_neg hlong).symm.trans hsize
    rfl

end Cpu

namespace Cpu.State

variable (st : State) (m n : Fin 16)

/-- MOV: a copy. -/
def move : State := st.setReg n (st.reg m)

/-- XOR. -/
def xorWith : State := st.setReg n (st.reg m ^^^ st.reg n)

/-- ROTCL: one place up through T. -/
def rotateThrough : State := (st.setReg n (st.reg n <<< 1 ||| st.flagWord .t)).setFlag .t (st.reg n).msb

/-- SHLL16: the low half as the high half. -/
def shiftHalf : State := st.setReg n (st.reg n <<< 16)

/-- EXTU.W: the low half alone. -/
def extendHalf : State := st.setReg n (((st.reg m).setWidth 16).setWidth 32)

/-- ADDC: the sum with T, and the carry in T. -/
def addWithCarry : State :=
  (st.setReg n (st.reg n + st.reg m + st.flagWord .t)).setFlag .t
    (decide (2 ^ 32 ≤ (st.reg n).toNat + (st.reg m).toNat + (st.flag .t).toNat))

/-- SUBC: the difference less T, and the borrow in T. -/
def subWithBorrow : State :=
  (st.setReg n (st.reg n - st.reg m - st.flagWord .t)).setFlag .t
    (decide ((st.reg n).toNat < (st.reg m).toNat + (st.flag .t).toNat))

/-- DIV0U: no sign. -/
def divideUnsigned : State := ((st.setFlag .m false).setFlag .q false).setFlag .t false

/-- DIV0S: the signs of the divisor and of the dividend, and whether they differ. -/
def divideSigned : State :=
  ((st.setFlag .m (st.reg m).msb).setFlag .q (st.reg n).msb).setFlag .t ((st.reg m).msb ^^ (st.reg n).msb)

/-- DIV1: one step of a division. -/
def divide : State :=
  (Divide.flags st (st.reg n) (st.reg m)).setReg n (Divide.remainder st (st.reg n) (st.reg m))

end Cpu.State

/-! ## Instructions -/

namespace Cpu.Transforms

variable (m n : Fin 16)

theorem mov : Transforms [.onRegs .mov [m, n]] (·.move m n) := by
  refine of_runs (e := (generalStorage n).write (generalStorage m).read) (fun pc privileged => lift_eq pc privileged rfl ?_) ?_
  · let cx : Context := ⟨.onRegs .mov [m, n], pc⟩
    have hread : cx.read 0 = _ := Context.read_eq (n := m) rfl rfl
    have hwrite : cx.write 1 (generalStorage m).read = _ := Context.write_eq (n := n) rfl rfl _
    exact Lift.move_eq rfl rfl hread hwrite
  · intro st
    exact ⟨_, .setReg (.reg m), rfl⟩

theorem rotcl : Transforms [.onRegs .rotcl [n]] (·.rotateThrough n) := by
  refine of_runs (e := .sequence [setTemp "v" (generalStorage n).read, (generalStorage n).write (Lift.rotatedUp Flag.t.word),
    Flag.t.assign (temp "v").msb]) (fun pc privileged => lift_eq pc privileged rfl ?_) fun st => ?_
  · show Lift.rotateLeftThrough _ = _
    unfold Lift.rotateLeftThrough
    rw [Context.value_eq (n := n) rfl rfl, Context.write_eq (n := n) rfl rfl]
    rfl
  · have hrotated : ∀ {x : Frame} {v : BitVec 32}, x.temps.lookup "v" = some (.word v) →
        Evals x (Lift.rotatedUp Flag.t.word) (.word (v <<< 1 ||| x.flagWord .t)) :=
      fun hv => ((Evals.temp hv).shl (.const 1 word_pos)).bitOr (.flagWord .t)
    exact ⟨_, .sequence (.cons (.setTemp (.reg n)) (.cons (.setReg (hrotated rfl)) (.cons (.assign (.msb (.temp rfl))) .nil))),
      rfl⟩

theorem shll16 : Transforms [.onRegs .shll16 [n]] (·.shiftHalf n) := by
  refine of_runs (e := (generalStorage n).write ((generalStorage n).read.shl (word 16)))
    (fun pc privileged => lift_eq pc privileged rfl ?_) fun st => ⟨_, .setReg ((Evals.reg n).shl (.const 16 word_pos)), rfl⟩
  show Lift.shiftBy _ _ _ = _
  unfold Lift.shiftBy
  rw [Context.value_eq (n := n) rfl rfl]
  show (Context.mk (.onRegs .shll16 [n]) pc).write 0 _ = _
  rw [Context.write_eq (n := n) rfl rfl]
  rfl

theorem extu : Transforms [.onHalves .extu [m, n]] (·.extendHalf m n) := by
  refine of_runs (e := (generalStorage n).write (((generalStorage m).read.unsigned 16).unsigned 32))
    (fun pc privileged => lift_eq pc privileged rfl ?_) fun st =>
      ⟨_, .setReg (((Evals.reg m).unsigned (by decide)).unsigned word_pos), rfl⟩
  let cx : Context := ⟨.onHalves .extu [m, n], pc⟩
  have htarget : cx.write 1 (((generalStorage m).read.unsigned 16).unsigned 32) .long = .ok _ := Context.write_long (n := n) rfl _
  show Lift.extend cx false = _
  rw [Lift.extend_eq, Context.value_long (n := m) rfl]
  exact htarget

theorem xor : Transforms [.onRegs .xor [m, n]] (·.xorWith m n) := by
  refine of_runs (e := (generalStorage n).write ((generalStorage m).read.bitXor (generalStorage n).read))
    (fun pc privileged => lift_eq pc privileged rfl ?_) fun st => ⟨_, .setReg ((Evals.reg m).bitXor (.reg n)), rfl⟩
  show Lift.bitwise _ _ = _
  unfold Lift.bitwise
  rw [Context.value_eq (n := m) rfl rfl, Context.value_eq (n := n) rfl rfl]
  show (Context.mk (.onRegs .xor [m, n]) pc).write 1 _ = _
  rw [Context.write_eq (n := n) rfl rfl]

theorem div0u : Transforms [.onRegs .div0u []] (·.divideUnsigned) :=
  of_runs (fun pc privileged => lift_eq pc privileged rfl rfl) fun _ =>
    ⟨_, .sequence (.cons (.assign (.bool false)) (.cons (.assign (.bool false)) (.cons (.assign (.bool false)) .nil))), rfl⟩

theorem div0s : Transforms [.onRegs .div0s [m, n]] (·.divideSigned m n) := by
  refine of_runs (e := .sequence [Flag.m.assign (generalStorage m).read.msb, Flag.q.assign (generalStorage n).read.msb,
    Flag.t.assign ((generalStorage m).read.msb.xor (generalStorage n).read.msb)])
    (fun pc privileged => lift_eq pc privileged rfl ?_) fun st => ?_
  · show Lift.divideSigned _ = _
    unfold Lift.divideSigned
    rw [Context.value_eq (n := m) rfl rfl, Context.value_eq (n := n) rfl rfl]
    rfl
  · refine ⟨_, .sequence (.cons (.assign (.msb (.reg m))) (.cons (.assign (.msb (.reg n))) (.cons (.assign ?_) .nil))), rfl⟩
    exact (Evals.msb (.reg m)).xor (.msb (.reg n))

theorem div1 : Transforms [.onRegs .div1 [m, n]] (·.divide m n) := by
  refine of_runs (e := .sequence [divideStep (generalStorage n).read (generalStorage m).read,
    (generalStorage n).write (temp "rem")]) (fun pc privileged => lift_eq pc privileged rfl ?_) fun st => ?_
  · show Lift.divide _ = _
    unfold Lift.divide
    rw [Context.value_eq (n := n) rfl rfl, Context.value_eq (n := m) rfl rfl, Context.write_eq (n := n) rfl rfl]
    rfl
  · obtain ⟨y, hstep, hrem, hy⟩ := runs_divideStep (x := ⟨st, []⟩) (.reg m) (.reg n)
    refine ⟨_, .sequence (.cons hstep (.cons (.setReg (.temp hrem)) .nil)), ?_⟩
    show y.toState.setReg n _ = _
    rw [hy]
    rfl

/-! ## Sums and differences with a carry -/

/-- The instructions that set T by a rule on the result and both operands. -/
theorem withFlag (mnemonic : Mnemonic) (result : Expr) (rule : Expr → Expr → Expr → Expr) (r : State → BitVec 32)
    (c : State → Bool) (hneeds : ∀ pc, Lift.needsPrivilege ⟨.onRegs mnemonic [m, n], pc⟩ = false)
    (heffect : ∀ pc, Lift.effect ⟨.onRegs mnemonic [m, n], pc⟩ = Lift.withFlag ⟨.onRegs mnemonic [m, n], pc⟩ result rule)
    (hresult : ∀ st, Evals ⟨st, [("y", .word (st.reg m)), ("x", .word (st.reg n))]⟩ result (.word (r st)))
    (hrule : ∀ st, Evals ⟨st.setReg n (r st), [("res", .word (r st)), ("y", .word (st.reg m)), ("x", .word (st.reg n))]⟩
      (rule (temp "res") (temp "x") (temp "y")) (.bool (c st))) :
    Transforms [.onRegs mnemonic [m, n]] fun st => (st.setReg n (r st)).setFlag .t (c st) := by
  refine of_runs (e := .sequence [setTemp "x" (generalStorage n).read, setTemp "y" (generalStorage m).read,
    setTemp "res" result, (generalStorage n).write (temp "res"), Flag.t.assign (rule (temp "res") (temp "x") (temp "y"))])
    (fun pc privileged => lift_eq pc privileged (hneeds pc) ?_) fun st => ?_
  · rw [heffect pc]
    unfold Lift.withFlag
    rw [Context.value_eq (n := n) rfl rfl, Context.value_eq (n := m) rfl rfl, Context.write_eq (n := n) rfl rfl]
    rfl
  · exact ⟨_, .sequence (.cons (.setTemp (.reg n)) (.cons (.setTemp (.reg m)) (.cons (.setTemp (hresult st))
      (.cons (.setReg (.temp rfl)) (.cons (.assign (hrule st)) .nil))))), rfl⟩

/-- A flag as a word is a carry. -/
theorem flagWord_le (st : State) (flag : Flag) : (st.flagWord flag).toNat ≤ 1 := by
  rw [State.toNat_flagWord]
  exact Bool.toNat_le _

theorem addc : Transforms [.onRegs .addc [m, n]] (·.addWithCarry m n) := by
  refine withFlag m n .addc (((temp "x").add (temp "y")).add Flag.t.word) .addCarry _ _ (fun _ => rfl) (fun _ => rfl)
    (fun st => ?_) fun st => ?_
  · exact ((Evals.temp rfl).add (.temp rfl)).add (.flagWord .t)
  · rw [← State.toNat_flagWord, ← addCarry_eq word_pos _ _ _ (flagWord_le st .t)]
    exact .addCarry (.temp rfl) (.temp rfl) (.temp rfl)

theorem subc : Transforms [.onRegs .subc [m, n]] (·.subWithBorrow m n) := by
  refine withFlag m n .subc (((temp "x").sub (temp "y")).sub Flag.t.word) .subBorrow _ _ (fun _ => rfl) (fun _ => rfl)
    (fun st => ?_) fun st => ?_
  · exact ((Evals.temp rfl).sub (.temp rfl)).sub (.flagWord .t)
  · rw [← State.toNat_flagWord, ← subBorrow_eq word_pos _ _ _ (flagWord_le st .t)]
    exact .subBorrow (.temp rfl) (.temp rfl) (.temp rfl)

end Cpu.Transforms
end SuperH
