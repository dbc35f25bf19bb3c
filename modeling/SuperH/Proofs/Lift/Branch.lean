import SuperH.Proofs.Cpu.Address
import SuperH.Proofs.Lift.OnRegisters

/-!
# Branches

* `Cpu.Jumps x e y target?` : from every interpreter that shows `x` and has not jumped, the effect `e` leads to one that shows `y`
  and that has jumped to the address, or has not jumped if there is none;
* `Branch` : BT, BF, BRA, BSR, BRAF, BSRF, JMP, JSR and RTS; `target` is where such a branch goes to if it is `taken`, `next` where
  the program goes on in either case, and `result` the state after it, in which PR has changed if it `calls`;
* `Branch.exists_lift`, `Branch.jumps` : what a branch means, and what that does.
-/

namespace SuperH

open SuperH.Expr SuperH.Effect SuperH.Cpu

namespace Cpu

/-! ## Effects that jump -/

/-- The effect leads from one state to the other, leaves the memory alone, and jumps to the address if there is one. -/
structure Jumps (x : Frame) (e : Effect) (y : Frame) (target? : Option Address) : Prop where
  exec : ∀ {σ : Type} [Bus σ] {vm : Vm} (bus : σ), Shows vm x → vm.config.pcBits = 32 → vm.jumped = false →
    ∃ vm', Machine.exec e ⟨vm, bus⟩ = .ok () ⟨vm', bus⟩ ∧ Shows vm' y ∧
      vm'.pc = target?.elim vm.pc (.ofBitVec · word_pos) ∧ vm'.jumped = target?.isSome

namespace Jumps

variable {x y : Frame} {e f c : Expr} {target? : Option Address}

theorem jmp {addr : Address} (h : Evals x e (.word addr)) : Jumps x (.jmp e) x (some addr) := by
  constructor
  intro σ _ vm bus hx hbits hjumped
  have hpos : 0 < vm.config.pcBits := hbits ▸ word_pos
  have htarget : (Bits.ofBitVec addr word_pos).setWidth vm.config.pcBits hpos = .ofBitVec addr word_pos := by
    simp only [hbits]
    rw [Bits.setWidth_ofBitVec, BitVec.setWidth_eq]
  have hjump : Vm.jump (Value.word addr).toBits vm = .ok () { vm with pc := .ofBitVec addr word_pos, jumped := true } :=
    (Vm.jump_eq hpos _).trans (by rw [← htarget]; rfl)
  refine ⟨{ vm with pc := .ofBitVec addr word_pos, jumped := true }, ?_, { hx with }, rfl, rfl⟩
  refine (bind_of_ok (value_of_eval (h.eval bus hx))).trans ?_
  unfold Machine.onVm
  dsimp only
  rw [hjump]

theorem nop : Jumps x .nop x none := ⟨fun _ hx _ hjumped => ⟨_, rfl, hx, rfl, hjumped⟩⟩

theorem branch {b : Bool} {t u : Effect} (hc : Evals x c (.bool b)) (ht : b = true → Jumps x t y target?)
    (hu : b = false → Jumps x u y target?) : Jumps x (.branch c t u) y target? := by
  constructor
  intro σ _ vm bus hx
  rw [exec_branch (hc.eval bus hx)]
  cases b with
  | true => exact (ht rfl).exec bus hx
  | false => exact (hu rfl).exec bus hx

/-- A word is set before the jump, which may depend on it. -/
theorem setWord {name : WordVar} {v : BitVec 32} {j : Effect} (h : Evals x e (.word v))
    (hj : Jumps (x.setWord name v) j y target?) : Jumps x (.sequence [.setGlobal name e, j]) y target? := by
  constructor
  intro σ _ vm bus hx hbits hjumped
  have hset := exec_setGlobal (h.eval bus hx) (hx.word name) rfl
  have hshows : Shows (vm.replace name (.word v)) (x.setWord name v) := hx.replace_word name v
  obtain ⟨vm', hexec, hrest⟩ := hj.exec bus hshows hbits hjumped
  refine ⟨vm', ?_, hrest⟩
  rw [exec_sequence]
  exact (bind_of_ok hset).trans ((bind_of_ok hexec).trans rfl)

end Jumps

/-- The register that calls leave their return address in. -/
def prVar : WordVar := ⟨"pr", by decide⟩

theorem generalVar_ne_pr : ∀ bank1 n, State.generalVar bank1 n ≠ prVar := by decide

theorem State.reg_setWord_pr (st : State) (v : BitVec 32) (n : Fin 16) : (st.setWord prVar v).reg n = st.reg n :=
  st.word_setWord_of_ne (generalVar_ne_pr st.bank1 n) v

end Cpu

/-! ## Instructions -/

/-- A branch. Displacements are raw fields, of which the low 8 or 12 bits count. -/
inductive Branch where
  /-- BT and BF, with and without a delay slot: taken if T is as asked for -/
  | onCondition (t delayed : Bool) (disp : Nat)
  /-- BRA and BSR -/
  | relative (calls : Bool) (disp : Nat)
  /-- BRAF and BSRF -/
  | far (calls : Bool) (n : Fin 16)
  /-- JMP and JSR -/
  | toRegister (calls : Bool) (n : Fin 16)
  /-- RTS -/
  | back

namespace Branch

def mnemonic : Branch → Mnemonic
  | onCondition true false _ => .bt
  | onCondition true true _ => .bts
  | onCondition false false _ => .bf
  | onCondition false true _ => .bfs
  | relative false _ => .bra
  | relative true _ => .bsr
  | far false _ => .braf
  | far true _ => .bsrf
  | toRegister false _ => .jmp
  | toRegister true _ => .jsr
  | back => .rts

def operands : Branch → List Operand
  | onCondition _ _ disp => [.pcRel8 disp]
  | relative _ disp => [.pcRel12 disp]
  | far _ n => [.pcReg n]
  | toRegister _ n => [.indirect n]
  | back => []

/-- The instruction, with any access size and any word. -/
def insn (b : Branch) (size : AccessSize) (opcode : Nat) : Insn := ⟨b.mnemonic, b.operands, size, opcode⟩

/-- BSR, BSRF and JSR. -/
def calls : Branch → Bool
  | relative calls _ | far calls _ | toRegister calls _ => calls
  | _ => false

/-- Where the branch at `pc` goes to if it is taken. -/
def target (st : State) (pc : Address) : Branch → Address
  | onCondition _ _ disp => pc + 4 + 2 * (BitVec.ofNat 8 disp).signExtend 32
  | relative _ disp => pc + 4 + 2 * (BitVec.ofNat 12 disp).signExtend 32
  | far _ n => pc + 4 + st.reg n
  | toRegister _ n => st.reg n
  | back => st.word prVar

def taken (st : State) : Branch → Bool
  | onCondition t _ _ => st.flag .t == t
  | _ => true

variable (b : Branch) (st : State) (pc : Address)

/-- Where the program goes on. -/
def next : Address := if b.taken st then b.target st pc else pc + 2

/-- A call leaves the address after its delay slot in PR. -/
def result : State := if b.calls then st.setWord prVar (pc + 4) else st

/-- The names of the registers that are changed besides the program counter. -/
def changed : List String := if b.calls then ["pr"] else []

theorem changesOnly_result : st.ChangesOnly (b.result st pc) b.changed := by
  unfold result changed
  split
  · exact State.ChangesOnly.refl.setWord (List.mem_cons_self ..) _
  · exact .refl

/-- A call does not go by the register that it changes. -/
theorem target_result : b.target (b.result st pc) pc = b.target st pc := by
  unfold result
  split
  · cases b with
    | onCondition t delayed disp | relative calls disp => rfl
    | far calls n => exact congrArg (pc + 4 + ·) (st.reg_setWord_pr _ n)
    | toRegister calls n => exact st.reg_setWord_pr _ n
    | back => cases ‹_ = true›
  · rfl

/-! ## The meaning -/

/-- The effect of the branch at `pc`, with an expression for its target. -/
def effect (pc : Nat) (target : Expr) : Branch → Effect
  | onCondition true _ _ => .branch Flag.t.expr (.jmp target) .nop
  | onCondition false _ _ => .branch Flag.t.expr .nop (.jmp target)
  | b => if b.calls then .sequence [setGlobal "pr" (word (pc + 4)), .jmp target] else .jmp target

theorem address_eq {operand : Operand} (h : b.operands = [operand]) (size : AccessSize) :
    st.address pc size operand = some (b.target st pc) := by
  have hdouble (v : BitVec 32) : v <<< 1 = 2 * v := by
    rw [BitVec.shiftLeft_eq_mul_twoPow, BitVec.mul_comm]
    rfl
  cases b with
  | onCondition t delayed disp | relative calls disp =>
    obtain rfl := List.singleton_inj.1 h
    exact congrArg some (congrArg (pc + 4 + ·) (hdouble _))
  | far calls n =>
    obtain rfl := List.singleton_inj.1 h
    exact congrArg some (congrArg (pc + 4 + ·) (st.named_general n))
  | toRegister calls n =>
    obtain rfl := List.singleton_inj.1 h
    exact congrArg some (st.named_general n)
  | back => cases h

theorem register_lt {operand : Operand} (h : b.operands = [operand]) (k : Nat) (hk : operand.register? = some k) :
    k < regCount := by
  cases b with
  | onCondition t delayed disp | relative calls disp =>
    obtain rfl := List.singleton_inj.1 h
    cases hk
  | far calls n | toRegister calls n =>
    obtain rfl := List.singleton_inj.1 h
    cases hk
    exact Nat.lt_trans n.isLt (by decide)
  | back => cases h

theorem needsPrivilege_insn (size : AccessSize) (opcode pc : Nat) :
    Lift.needsPrivilege ⟨b.insn size opcode, pc⟩ = false := by
  cases b with
  | onCondition t delayed disp => cases t <;> cases delayed <;> rfl
  | relative calls disp | far calls n | toRegister calls n => cases calls <;> rfl
  | back => rfl

theorem operand_insn {operand : Operand} (h : b.operands = [operand]) (size : AccessSize) (opcode pc : Nat) :
    Context.operand ⟨b.insn size opcode, pc⟩ 0 = .ok operand := by
  unfold Context.operand insn
  dsimp only
  rw [h]
  rfl

/-- Every branch but RTS has its target in its operand. -/
theorem lift_of_address {size : AccessSize} {opcode pc : Nat} {a : Expr} {operand : Operand} (h : b.operands = [operand])
    (ha : Cpu.address operand size pc = .ok a) (privileged : Bool) :
    lift (b.insn size opcode) pc privileged = .ok (.effect (b.effect pc a)) := by
  have haddress : Context.address ⟨b.insn size opcode, pc⟩ 0 = .ok a := by
    rw [Context.address, b.operand_insn h]
    exact ha
  have hbranch (t : Bool) : Lift.branchIf ⟨b.insn size opcode, pc⟩ t =
      .ok (if t then .branch Flag.t.expr (.jmp a) .nop else .branch Flag.t.expr .nop (.jmp a)) := by
    rw [Lift.branchIf, haddress]
    rfl
  have hjump : Lift.jump ⟨b.insn size opcode, pc⟩ = .ok (.jmp a) := by
    rw [Lift.jump, haddress]
    rfl
  have hcall : Lift.call ⟨b.insn size opcode, pc⟩ = .ok (.sequence [setGlobal "pr" (word (pc + 4)), .jmp a]) := by
    rw [Lift.call, haddress]
    rfl
  refine lift_eq pc privileged (b.needsPrivilege_insn size opcode pc) ?_
  cases b with
  | onCondition t delayed disp => cases t <;> cases delayed <;> exact hbranch _
  | relative calls disp | far calls n | toRegister calls n =>
    cases calls with
    | true => exact hcall
    | false => exact hjump
  | back => cases h

/-- There is an expression for the target, by the state that the branch is executed in. -/
theorem exists_lift (pc : Nat) (size : AccessSize) (opcode : Nat) (privileged : Bool) :
    ∃ a, (∀ x : Frame, Evals x a (.word (b.target x.toState (BitVec.ofNat 32 pc)))) ∧
      lift (b.insn size opcode) pc privileged = .ok (.effect (b.effect pc a)) := by
  have hexpr (operand : Operand) (h : b.operands = [operand]) :
      ∃ a, (∀ x : Frame, Evals x a (.word (b.target x.toState (BitVec.ofNat 32 pc)))) ∧
        lift (b.insn size opcode) pc privileged = .ok (.effect (b.effect pc a)) := by
    obtain ⟨a, ha, heval⟩ := exists_address_of_forall pc (b.register_lt h) fun st => b.address_eq st _ h size
    exact ⟨a, heval, b.lift_of_address h ha privileged⟩
  cases b with
  | onCondition t delayed disp | relative calls disp | far calls n | toRegister calls n => exact hexpr _ rfl
  | back => exact ⟨_, fun x => .global prVar, lift_eq pc privileged (back.needsPrivilege_insn size opcode pc) rfl⟩

/-- What a branch does to a state, and where it jumps to if it is taken. -/
theorem jumps {a : Expr} {pc : Nat} (ha : ∀ x : Frame, Evals x a (.word (b.target x.toState (BitVec.ofNat 32 pc)))) :
    Jumps ⟨st, []⟩ (b.effect pc a) ⟨b.result st (BitVec.ofNat 32 pc), []⟩
      (if b.taken st then some (b.target st (BitVec.ofNat 32 pc)) else none) := by
  have hreturn : Evals ⟨st, []⟩ (word (pc + 4)) (.word (BitVec.ofNat 32 pc + 4)) := by
    have hconst : Evals ⟨st, []⟩ (word (pc + 4)) _ := .const (pc + 4) word_pos
    rwa [BitVec.ofNat_add] at hconst
  -- the target is evaluated in the state that PR is already set in
  have hjump : Jumps ⟨b.result st (BitVec.ofNat 32 pc), []⟩ (.jmp a) _ _ := .jmp (ha _)
  change Jumps _ _ _ (some (b.target (b.result st _) _)) at hjump
  rw [target_result] at hjump
  have halways (calls : Bool) (hcalls : b.calls = calls) :
      Jumps ⟨st, []⟩ (if calls then .sequence [setGlobal "pr" (word (pc + 4)), .jmp a] else .jmp a)
        ⟨b.result st (BitVec.ofNat 32 pc), []⟩ (some (b.target st (BitVec.ofNat 32 pc))) := by
    rw [result, hcalls] at hjump ⊢
    cases calls with
    | true =>
      have hcall : Jumps ⟨st, []⟩ (.sequence [setGlobal prVar (word (pc + 4)), .jmp a]) _ _ := .setWord hreturn hjump
      exact hcall
    | false => exact hjump
  cases b with
  | onCondition t delayed disp =>
    have ht : Evals ⟨st, []⟩ Flag.t.expr (.bool (st.flag .t)) := .flag .t
    show Jumps _ _ _ (if st.flag .t == t then _ else _)
    cases t with
    | true =>
      refine .branch ht (fun h => ?_) fun h => ?_
      · rw [h]
        exact hjump
      · rw [h]
        exact .nop
    | false =>
      refine .branch ht (fun h => ?_) fun h => ?_
      · rw [h]
        exact .nop
      · rw [h]
        exact hjump
  | relative calls disp | far calls n | toRegister calls n => exact halways calls rfl
  | back => exact halways false rfl

end Branch
end SuperH
