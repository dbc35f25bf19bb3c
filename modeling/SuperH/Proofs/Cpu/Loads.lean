import SuperH.Proofs.Cpu.Execution
import SuperH.Proofs.Vm.Load

/-!
# Execution on states and one memory

* `Cpu.EvalsOn` : the value of an expression on one memory, which a load depends on;
* `Cpu.FailsOn` : an expression that cannot be evaluated on one memory;
* `Cpu.RunsOn` : the effects that lead from one state to another on one memory and leave it alone;
* `Cpu.exec_store` : the effect that does not; `exec_set_error`, `exec_store_error` : effects whose value cannot be evaluated.
-/

namespace SuperH

namespace Cpu

open SuperH.Expr SuperH.Effect

variable {σ : Type} [Bus σ] {bigEndian : Bool} {bus : σ} {x y z : Frame} {e f : Expr}

/-- The expression has the value wherever the state shows and the memory is the given one. -/
structure EvalsOn (bigEndian : Bool) (bus : σ) (x : Frame) (e : Expr) (v : Value) : Prop where
  eval : ∀ {vm : Vm}, SetUp bigEndian vm → Shows vm x → vm.eval e bus = .ok v bus

/-- The expression cannot be evaluated wherever the state shows and the memory is the given one, which stays as it is. -/
structure FailsOn (bigEndian : Bool) (bus : σ) (x : Frame) (e : Expr) (cause : VmError) : Prop where
  eval : ∀ {vm : Vm}, SetUp bigEndian vm → Shows vm x → vm.eval e bus = .error (.error cause) bus

/-- On the given memory the effects lead from one state to the other, one after the other, and leave it alone. -/
structure RunsOn (bigEndian : Bool) (bus : σ) (x : Frame) (es : List Effect) (y : Frame) : Prop where
  exec : ∀ {vm : Vm}, SetUp bigEndian vm → Shows vm x → ∃ vm', Machine.execAll es ⟨vm, bus⟩ = .ok () ⟨vm', bus⟩ ∧ Shows vm' y

theorem SetUp.memKeyBits {vm : Vm} (h : SetUp bigEndian vm) : vm.config.memKeyBits = 32 := by
  rw [h.config]
  rfl

/-- No effect undoes what sets an interpreter up. -/
theorem SetUp.of_exec {vm vm' : Vm} {e : Effect} {bus' : σ} (h : SetUp bigEndian vm)
    (hexec : Machine.exec e ⟨vm, bus⟩ = .ok () ⟨vm', bus'⟩) : SetUp bigEndian vm' :=
  (Machine.exec_keeps Policy.any_refutes (SetUp.stable bigEndian).closed e.within_any).of_ok hexec h

/-- An expression that loads nothing has its value on every memory. -/
theorem Evals.on {v : Value} (h : Evals x e v) : EvalsOn bigEndian bus x e v := ⟨fun _ hx => h.eval bus hx⟩

theorem eval_load {vm : Vm} (hvm : SetUp bigEndian vm) {addr : BitVec 32} (he : vm.eval e bus = .ok (.word addr) bus)
    {bits : Nat} (hbits : bits < 2 ^ 32) :
    vm.eval (.load bits e) bus = (Vm.load (vmConfig bigEndian) addr bits >>= fun v => return Value.bits v) bus := by
  rw [Vm.eval_load hvm.memKeyBits he hbits, hvm.config]

section

variable {w : Nat} {h : 0 < w} {a b : BitVec w} {addr : BitVec 32} {n : Nat}

namespace EvalsOn

/-- Mapped bytes are loaded. -/
theorem load (hn : 0 < n * 8) (hlt : n * 8 < 2 ^ 32) (he : Evals x e (.word addr))
    (hmapped : ∀ i < n, Bus.Mapped bus (addr + BitVec.ofNat 32 i)) :
    EvalsOn bigEndian bus x (.load (n * 8) e) (.bits (.ofBitVec (Bus.element bus bigEndian n addr) hn)) :=
  ⟨fun hvm hx => (eval_load hvm (he.eval bus hx) hlt).trans (bind_of_ok (Vm.load_eq (vmConfig bigEndian) hn hlt hmapped))⟩

theorem isZero (he : EvalsOn bigEndian bus x e (.bits (.ofBitVec a h))) :
    EvalsOn bigEndian bus x (.isZero e) (.bool (a == 0)) := ⟨fun hvm hx => Vm.eval_isZero (he.eval hvm hx)⟩

theorem arith {op : ArithOp} {v : BitVec w} (hop : op.apply (.ofBitVec a h) (.ofBitVec b h) = .ok (.ofBitVec v h))
    (he : EvalsOn bigEndian bus x e (.bits (.ofBitVec a h))) (hf : EvalsOn bigEndian bus x f (.bits (.ofBitVec b h))) :
    EvalsOn bigEndian bus x (.arith op e f) (.bits (.ofBitVec v h)) :=
  ⟨fun hvm hx => Vm.eval_arith hop (he.eval hvm hx) (hf.eval hvm hx)⟩

theorem signed {width : Nat} (hpos : 0 < width) (he : EvalsOn bigEndian bus x e (.bits (.ofBitVec a h))) :
    EvalsOn bigEndian bus x (e.signed width) (.bits (.ofBitVec (a.signExtend width) hpos)) :=
  ⟨fun hvm hx => Vm.eval_cast (Bits.signExtend_ofBitVec a hpos) (he.eval hvm hx)⟩

end EvalsOn

namespace FailsOn

variable {cause : VmError}

/-- The first byte that is refused stops a load. -/
theorem load {k : Nat} {cause : BusError} (hlt : n * 8 < 2 ^ 32) (he : Evals x e (.word addr)) (hk : k < n)
    (hmapped : ∀ i < k, Bus.Mapped bus (addr + BitVec.ofNat 32 i))
    (hcause : Bus.read8 (addr + BitVec.ofNat 32 k) bus = .error cause bus) :
    FailsOn bigEndian bus x (.load (n * 8) e) (.bus (addr + BitVec.ofNat 32 k) cause) :=
  ⟨fun hvm hx => (eval_load hvm (he.eval bus hx) hlt).trans (bind_of_error (Vm.load_error _ hk hmapped hcause))⟩

theorem isZero (he : FailsOn bigEndian bus x e cause) : FailsOn bigEndian bus x (.isZero e) cause :=
  ⟨fun hvm hx => Vm.eval_isZero_error (he.eval hvm hx)⟩

theorem arith (op : ArithOp) (he : Evals x e (.bits (.ofBitVec a h))) (hf : FailsOn bigEndian bus x f cause) :
    FailsOn bigEndian bus x (.arith op e f) cause := ⟨fun hvm hx => Vm.eval_arith_error op (he.eval bus hx) (hf.eval hvm hx)⟩

theorem signed {width : Nat} (hpos : 0 < width) (he : FailsOn bigEndian bus x e cause) :
    FailsOn bigEndian bus x (e.signed width) cause := ⟨fun hvm hx => Vm.eval_cast_error true hpos (he.eval hvm hx)⟩

end FailsOn

end

namespace RunsOn

theorem nil : RunsOn bigEndian bus x [] x := ⟨fun _ hx => ⟨_, rfl, hx⟩⟩

/-- An effect whose outcome the rest goes on from. -/
theorem cons_of_exec {e : Effect} {es : List Effect}
    (h : ∀ {vm}, SetUp bigEndian vm → Shows vm x → ∃ vm', Machine.exec e ⟨vm, bus⟩ = .ok () ⟨vm', bus⟩ ∧ Shows vm' y)
    (hrest : RunsOn bigEndian bus y es z) : RunsOn bigEndian bus x (e :: es) z := by
  constructor
  intro vm hvm hx
  obtain ⟨vm₁, hfirst, h₁⟩ := h hvm hx
  obtain ⟨vm₂, hlast, h₂⟩ := hrest.exec (hvm.of_exec hfirst) h₁
  exact ⟨vm₂, (bind_of_ok hfirst).trans hlast, h₂⟩

theorem cons {e : Effect} {es : List Effect} (h : Runs x e y) (hrest : RunsOn bigEndian bus y es z) :
    RunsOn bigEndian bus x (e :: es) z := cons_of_exec (fun _ hx => h.exec bus hx) hrest

theorem setTemp {name : String} {v : Value} {es : List Effect} (h : EvalsOn bigEndian bus x e v)
    (hrest : RunsOn bigEndian bus (x.setTemp name v) es y) : RunsOn bigEndian bus x (.setTemp name e :: es) y :=
  cons_of_exec (fun hvm hx => ⟨_, exec_setTemp (h.eval hvm hx), hx.setTemp name v⟩) hrest

/-- A flag takes a value that may depend on the memory. -/
theorem assign {flag : Flag} {b : Bool} {es : List Effect} (h : EvalsOn bigEndian bus x e (.bool b))
    (hrest : RunsOn bigEndian bus (x.setFlag flag b) es y) : RunsOn bigEndian bus x (flag.assign e :: es) y :=
  cons_of_exec (fun hvm hx => ⟨_, exec_setGlobal (h.eval hvm hx) (hx.flag flag) rfl, hx.replace_flag flag b⟩) hrest

/-- What goes on from there finds the interpreter set up. -/
theorem exec_setUp {es : List Effect} (h : RunsOn bigEndian bus x es y) {vm : Vm} (hvm : SetUp bigEndian vm) (hx : Shows vm x) :
    ∃ vm', Machine.execAll es ⟨vm, bus⟩ = .ok () ⟨vm', bus⟩ ∧ SetUp bigEndian vm' ∧ Shows vm' y := by
  obtain ⟨vm', hexec, hx'⟩ := h.exec hvm hx
  have hseq : Machine.exec (.seq es) ⟨vm, bus⟩ = .ok () ⟨vm', bus⟩ := hexec
  exact ⟨vm', hexec, hvm.of_exec hseq, hx'⟩

end RunsOn

/-! ## Stores and failures -/

/-- What a store leads to depends on the store to the memory alone. -/
theorem exec_store {vm : Vm} (hvm : SetUp bigEndian vm) {a : Expr} {addr : BitVec 32} {v : Value} {bus' : σ}
    (ha : vm.eval a bus = .ok (.word addr) bus) (he : vm.eval e bus = .ok v bus)
    (hstore : Vm.store (vmConfig bigEndian) addr v.toBits bus = .ok () bus') :
    Machine.exec (.store a e) ⟨vm, bus⟩ = .ok () ⟨vm, bus'⟩ := by
  rw [Machine.exec_store hvm.memKeyBits ha he]
  unfold Machine.onBus
  dsimp only
  rw [hvm.config, hstore]

section

variable {vm : Vm} {error : Failure VmError} {bus' : σ} (he : vm.eval e bus = .error error bus')

include he

theorem value_of_eval_error : Machine.value e ⟨vm, bus⟩ = .error error ⟨vm, bus'⟩ := by
  unfold Machine.value Machine.onBus
  dsimp only
  rw [he]

theorem exec_set_error (v : Var) : Machine.exec (.set v e) ⟨vm, bus⟩ = .error error ⟨vm, bus'⟩ :=
  bind_of_error (value_of_eval_error he)

/-- The value is evaluated after the address. -/
theorem exec_store_error (hvm : SetUp bigEndian vm) {a : Expr} {addr : BitVec 32} (ha : vm.eval a bus = .ok (.word addr) bus) :
    Machine.exec (.store a e) ⟨vm, bus⟩ = .error error ⟨vm, bus'⟩ :=
  (bind_of_ok (Machine.address_of_eval hvm.memKeyBits ha)).trans (bind_of_error (value_of_eval_error he))

end

end Cpu
end SuperH
