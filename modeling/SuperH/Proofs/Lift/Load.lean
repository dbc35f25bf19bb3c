import SuperH.Proofs.Lift.MultiplyAccumulate

/-!
# Loads from memory to a register

* `Operand.IsSource` : the operands that a value is loaded from; `Operand.stepped?` is the register that is stepped after that;
* `loadEffects`, `exists_lift_load` : what MOV from such an operand to a register means, at every access size;
* `State.load`, `runs_load` : what that does to a state, on a memory where the bytes are mapped;
* `exec_load_error` : it fails at the first byte that cannot be read.
-/

namespace SuperH

open SuperH.Expr SuperH.Effect SuperH.Cpu

variable {size : AccessSize} {bytes : Nat} {source : Operand} {n : Fin 16}

namespace Operand

/-- The operands in memory that a value is loaded from. -/
inductive IsSource : Operand → Prop
  | indirect (m : Fin 16) : IsSource (.indirect m)
  | postInc (m : Fin 16) : IsSource (.postInc m)
  | displaced (m : Fin 16) (disp : Nat) : IsSource (.displaced m disp)
  | indexed (m : Fin 16) : IsSource (.indexed m)
  | gbrDisp (disp : Nat) : IsSource (.gbrDisp disp)
  | gbrIndexed : IsSource .gbrIndexed
  | pcDisp (disp : Nat) : IsSource (.pcDisp disp)

/-- The register that a load to `Rn` steps: that of a source `@Rm+`, unless it is `Rn`. -/
def stepped? (n : Fin 16) : Operand → Option (Fin 16)
  | .postInc m => if m = n then none else if h : m < 16 then some ⟨m, h⟩ else none
  | _ => none

theorem stepped?_postInc (m n : Fin 16) : (Operand.postInc m).stepped? n = if m = n then none else some m := by
  rw [stepped?, dif_pos m.isLt]
  exact if_congr Fin.ext_iff.symm rfl rfl

theorem ne_of_stepped? (h : source.IsSource) {m : Fin 16} (hm : source.stepped? n = some m) : m ≠ n := by
  cases h with
  | postInc k =>
    rw [stepped?_postInc] at hm
    split at hm
    · cases hm
    · cases hm
      assumption
  | _ => cases hm

theorem IsSource.register_lt (h : source.IsSource) (k : Nat) (hk : source.register? = some k) : k < Cpu.regCount := by
  have hall (m : Fin 16) : m.1 < Cpu.regCount := Nat.lt_trans m.isLt (by decide)
  cases h <;> cases hk <;> exact hall _

/-- A sized load has an address. -/
theorem IsSource.exists_address (h : source.IsSource) (hsize : size.bytes? = some bytes) (st : State) (pc : Address) :
    ∃ addr, st.address pc size source = some addr := by
  cases h <;> simp [State.address, hsize]

end Operand

/-! ## The meaning -/

namespace Cpu

/-- A value that is smaller than a register comes with its sign. -/
def extended (size : AccessSize) (e : Expr) : Expr :=
  match size with
  | .byte | .word => e.signed 32
  | .unsized | .long => e

/-- Moves the address in a register past an access. -/
def stepEffect (bytes : Nat) (m : Fin 16) : Effect := (generalStorage m).write ((generalStorage m).read.add (word bytes))

/-- Loads from an address and steps a register, if any. -/
def loadEffects (size : AccessSize) (bytes : Nat) (n : Fin 16) (addr : Expr) (stepped : Option (Fin 16)) : List Effect :=
  (generalStorage n).write (extended size (.load (bytes * 8) addr)) :: (stepped.map (stepEffect bytes)).toList

theorem write_general (n : Fin 16) (value : Expr) (size : AccessSize) (pc : Nat) :
    Cpu.write (.reg n) value size pc = .ok ((generalStorage n).write (extended size value)) := by
  cases size <;> exact setReg_general n _

theorem exec_around {σ : Type} [Bus σ] (target : Effect) (post : Option Effect) :
    (Machine.exec (around none target post) : Run σ Unit) = Machine.execAll (target :: post.toList) := by
  cases post with
  | none => exact (bind_pure (Machine.exec target)).symm
  | some e => exact exec_sequence [target, e]

end Cpu

/-- A source is read by a load, and what MOV keeps of the effect after that steps a register, if any. -/
theorem Context.read_source {cx : Context} {index : Nat} {addr : Expr} (ho : cx.operand index = .ok source)
    (hsource : source.IsSource) (hsize : cx.insn.size.bytes? = some bytes)
    (haddr : Cpu.address source cx.insn.size cx.pc = .ok addr) (n : Fin 16) :
    ∃ post, cx.read index = .ok { value := .load (bytes * 8) addr, post } ∧
      Lift.postOfMove source (.reg n) post = (source.stepped? n).map (stepEffect bytes) := by
  cases hsource with
  | postInc m =>
    obtain rfl : (generalStorage m).read = addr := Except.ok.inj ((address_general (by simp) _ _).symm.trans haddr)
    refine ⟨_, read_postInc ho hsize, ?_⟩
    rw [Operand.stepped?_postInc, Lift.postOfMove]
    by_cases hmn : m = n
    · rw [if_pos hmn, if_pos (congrArg Fin.val hmn)]
      rfl
    · rw [if_neg hmn, if_neg fun heq => hmn (Fin.ext heq)]
      rfl
  | indirect m | displaced m disp | indexed m | gbrDisp disp | gbrIndexed | pcDisp disp =>
    refine ⟨none, ?_, rfl⟩
    rw [read_of_operand ho]
    unfold Cpu.read
    dsimp only
    rw [accessBits_eq hsize, haddr]
    rfl

theorem exists_lift_load (hsource : source.IsSource) (hsize : size.bytes? = some bytes) {pc : Nat} {addr : Expr}
    (haddr : Cpu.address source size pc = .ok addr) (n : Fin 16) (opcode : Nat) (privileged : Bool) :
    ∃ e, lift ⟨.mov, [source, .reg n], size, opcode⟩ pc privileged = .ok (.effect e) ∧
      ∀ {σ : Type} [Bus σ],
        (Machine.exec e : Run σ Unit) = Machine.execAll (loadEffects size bytes n addr (source.stepped? n)) := by
  let cx : Context := ⟨⟨.mov, [source, .reg n], size, opcode⟩, pc⟩
  have hsrc : cx.operand 0 = .ok source := rfl
  obtain ⟨post, hread, hpost⟩ := Context.read_source hsrc hsource hsize haddr n
  have hdst : cx.operand 1 = .ok (.reg n) := rfl
  have hwrite : cx.write 1 (.load (bytes * 8) addr) = _ := write_general n _ size pc
  have hmove := Lift.move_eq hsrc hdst hread hwrite
  rw [hpost] at hmove
  exact ⟨_, lift_eq pc privileged rfl hmove, fun {σ} _ => exec_around _ _⟩

/-! ## The effect on a state -/

namespace Cpu

/-- A register that takes a value, and one that is stepped after that, if any. -/
def State.load (st : State) (n : Fin 16) (v : BitVec 32) (stepped : Option (Fin 16)) (bytes : Nat) : State :=
  match stepped with
  | none => st.setReg n v
  | some m => (st.setReg n v).advance m bytes

/-- The variables of both registers. -/
def State.loadNames (st : State) (n : Fin 16) (stepped : Option (Fin 16)) : List String :=
  (n :: stepped.toList).map fun k => (generalVar st.bank1 k).1

variable {σ : Type} [Bus σ] {bigEndian : Bool} {bus : σ} {x : Frame} {e : Expr}

theorem EvalsOn.extended (hsize : size.bytes? = some bytes) {v : BitVec (bytes * 8)}
    (he : EvalsOn bigEndian bus x e (.bits (.ofBitVec v (AccessSize.bytes_pos hsize)))) :
    EvalsOn bigEndian bus x (Cpu.extended size e) (.word (v.signExtend 32)) := by
  cases size with
  | unsized => cases hsize
  | byte | word =>
    cases hsize
    exact he.signed _
  | long =>
    cases hsize
    rw [BitVec.signExtend_eq]
    exact he

theorem FailsOn.extended {cause : VmError} (size : AccessSize) (he : FailsOn bigEndian bus x e cause) :
    FailsOn bigEndian bus x (Cpu.extended size e) cause := by
  cases size with
  | byte | word => exact he.signed word_pos
  | unsized | long => exact he

theorem runs_load (hsize : size.bytes? = some bytes) {addr : Address} (he : Evals x e (.word addr)) (n : Fin 16)
    (stepped : Option (Fin 16)) (hmapped : ∀ i < bytes, Bus.Mapped bus (addr + BitVec.ofNat 32 i)) :
    ∃ y, RunsOn bigEndian bus x (loadEffects size bytes n e stepped) y ∧
      y.toState = x.toState.load n ((Bus.element bus bigEndian bytes addr).signExtend 32) stepped bytes := by
  have hload : EvalsOn bigEndian bus x (Cpu.extended size (.load (bytes * 8) e))
      (.word ((Bus.element bus bigEndian bytes addr).signExtend 32)) :=
    .extended hsize (.load _ (AccessSize.bits_lt hsize) he hmapped)
  cases stepped with
  | none => exact ⟨_, .setReg hload .nil, rfl⟩
  | some m =>
    refine ⟨_, .setReg hload (.cons (.setReg ((Evals.reg m).add (.const bytes word_pos))) .nil), rfl⟩

/-- A load fails at the first byte that is refused, before any register changes. -/
theorem exec_load_error {vm : Vm} (hvm : SetUp bigEndian vm) (hx : Shows vm x) {addr : Address} (he : Evals x e (.word addr))
    (hsize : size.bytes? = some bytes) (n : Fin 16) (stepped : Option (Fin 16)) {k : Nat} {cause : BusError} (hk : k < bytes)
    (hmapped : ∀ i < k, Bus.Mapped bus (addr + BitVec.ofNat 32 i))
    (hcause : Bus.read8 (addr + BitVec.ofNat 32 k) bus = .error cause bus) :
    Machine.execAll (loadEffects size bytes n e stepped) ⟨vm, bus⟩ =
      .error (.error (.bus (addr + BitVec.ofNat 32 k) cause)) ⟨vm, bus⟩ := by
  have hload : FailsOn bigEndian bus x (Cpu.extended size (.load (bytes * 8) e)) _ :=
    .extended size (.load (AccessSize.bits_lt hsize) he hk hmapped hcause)
  exact bind_of_error (exec_setReg_error hx n (hload.eval hvm hx))

end Cpu
end SuperH
