import SuperH.Memory.Linear
import SuperH.Proofs.Cpu.Execution
import SuperH.Proofs.Vm.RoundTrip

/-!
# The flags and the status register

* `FlagSet.testBit_pack`, `FlagSet.unpack_pack` : the bits of a set of flags, and that they say which set it is;
* `Vm.SetUpBy.shows` : an interpreter on which the machine's binding was set up shows a state, its `Vm.frame`;
* `Cpu.Evals.statusExpr`, `Cpu.exec_setStatus` : putting SR together and splitting it;
* `status_codecs_agree` : both are packing and unpacking of the flags;
* `status_layout` : what loading a register SR makes of the flags, which is not unpacking for the interrupt mask.
-/

namespace SuperH

/-! ## The bits of a set of flags -/

namespace Flag

theorem mem_all (flag : Flag) : flag ∈ all := by
  cases flag <;> decide

theorem bit_lt (flag : Flag) : flag.bit < 32 := by
  cases flag <;> decide

/-- No other flag has its bit among those that set a flag. -/
theorem testBit_mask (flag other : Flag) : flag.mask.testBit other.bit = decide (other = flag) := by
  cases flag <;> cases other <;> rfl

end Flag

namespace FlagSet

theorem testBit_shiftLeft_toNat (b : Bool) (k i : Nat) : (b.toNat <<< k).testBit i = (b && k == i) := by
  cases b with
  | false => simp
  | true =>
    rw [Bool.toNat_true, Nat.one_shiftLeft, Nat.testBit_two_pow]
    rfl

theorem testBit_foldl (flags : FlagSet) (fs : List Flag) (n i : Nat) :
    (fs.foldl (fun sr flag => sr ||| (flags flag).toNat <<< flag.bit) n).testBit i =
      (n.testBit i || fs.any fun flag => flags flag && flag.bit == i) := by
  induction fs generalizing n with
  | nil => simp
  | cons flag fs ih =>
    rw [List.foldl_cons, ih, Nat.testBit_or, testBit_shiftLeft_toNat, List.any_cons, Bool.or_assoc]

/-- SR has the lowest bit of each flag of the set, and no other. -/
theorem testBit_pack {flags : FlagSet} {i : Nat} :
    flags.pack.toNat.testBit i = true ↔ ∃ flag : Flag, flags flag = true ∧ flag.bit = i := by
  have hany : (Flag.all.any fun flag => flags flag && flag.bit == i) = true ↔
      ∃ flag : Flag, flags flag = true ∧ flag.bit = i := by
    simp [Flag.mem_all]
  rw [pack, Bits.toNat_ofNat, Nat.testBit_mod_two_pow, testBit_foldl, Nat.zero_testBit, Bool.false_or, Bool.and_eq_true,
    decide_eq_true_iff, hany, and_iff_right_iff_imp]
  rintro ⟨flag, -, rfl⟩
  exact flag.bit_lt

/-- A value of SR sets a flag by any of its bits. -/
theorem unpack_eq_true_iff {v : Bits} {flag : Flag} :
    unpack v flag = true ↔ ∃ i, v.toNat.testBit i = true ∧ flag.mask.testBit i = true := by
  rw [unpack, bne_iff_ne]
  constructor
  · intro hne
    obtain ⟨i, hi⟩ := Nat.exists_testBit_of_ne_zero hne
    rw [Nat.testBit_and, Bool.and_eq_true] at hi
    exact ⟨i, hi⟩
  · rintro ⟨i, hv, hmask⟩ hzero
    have hbit : (v.toNat &&& flag.mask).testBit i = true := by rw [Nat.testBit_and, hv, hmask, Bool.and_true]
    rw [hzero, Nat.zero_testBit] at hbit
    cases hbit

theorem unpack_of_testBit {v : Bits} {flag : Flag} (h : v.testBit flag.bit = true) : unpack v flag = true := by
  refine unpack_eq_true_iff.2 ⟨flag.bit, h, ?_⟩
  rw [Flag.testBit_mask, decide_eq_true rfl]

theorem unpack_pack (flags : FlagSet) : unpack flags.pack = flags := by
  funext flag
  rw [Bool.eq_iff_iff]
  constructor
  · intro hunpack
    obtain ⟨i, hset, hmask⟩ := unpack_eq_true_iff.1 hunpack
    obtain ⟨other, hother, rfl⟩ := testBit_pack.1 hset
    rw [Flag.testBit_mask, decide_eq_true_iff] at hmask
    exact hmask ▸ hother
  · intro hflag
    exact unpack_of_testBit (testBit_pack.2 ⟨flag, hflag, rfl⟩)

end FlagSet

/-! ## The state of an interpreter -/

namespace Vm

variable {vm : Vm}

/-- The flags whose variables are true. -/
def flags (vm : Vm) : FlagSet := fun flag => vm.get? flag.var = some (.bool true)

theorem flags_eq {flags : FlagSet} (h : ∀ flag : Flag, vm.get? flag.var = some (.bool (flags flag))) : vm.flags = flags := by
  funext flag
  show decide (vm.get? flag.var = some (.bool true)) = flags flag
  rw [h]
  cases flags flag <;> rfl

/-- The values of the machine's variables, and the variables of the instruction. -/
def frame (vm : Vm) : Cpu.Frame where
  word name := BitVec.ofNat 32 (Sync.number vm name)
  flag := vm.flags
  temps := vm.temps

/-- An interpreter on which the machine's binding was set up has a variable of the right sort for each word and flag. -/
theorem SetUpBy.shows (h : vm.SetUpBy (.derive Cpu.profile)) : Cpu.Shows vm vm.frame where
  word name := by
    obtain ⟨r, hr, hname, hsize⟩ := Cpu.exists_wordReg name name.2
    have hsort := h.sort_of_mem r.bound (Cpu.boundRegs_selects.bound_mem hr)
    obtain ⟨x, hx, hs⟩ := Option.map_eq_some_iff.1 hsort
    change vm.get? r.name = some x at hx
    rw [hname] at hx
    have hs' : x.sort = .bits 32 := by
      have hne : ¬ r.bound.size = 1 := by
        show ¬ r.size = 1
        omega
      rw [hs, Bound.sort, if_neg hne]
      exact congrArg ValueSort.bits hsize
    obtain ⟨v, rfl, hv⟩ := Value.eq_bits_of_sort hs'
    obtain ⟨w, rfl⟩ := Bits.exists_ofBitVec hv Expr.word_pos
    have hnumber : Sync.number vm name = w.toNat := (Sync.number_eq hx).trans (Bits.toNat_ofBitVec w)
    show _ = some (Value.word (BitVec.ofNat 32 (Sync.number vm name)))
    rw [hx, hnumber, BitVec.ofNat_toNat, BitVec.setWidth_eq]
    rfl
  flag flag := by
    have hsort := h.sort_of_mem (Cpu.flagReg flag).bound (Cpu.boundRegs_selects.bound_mem (Cpu.flagReg_mem flag))
    obtain ⟨x, hx, hs⟩ := Option.map_eq_some_iff.1 hsort
    change vm.get? flag.var = some x at hx
    obtain ⟨b, rfl⟩ := Value.eq_bool_of_sort hs
    show _ = some (Value.bool (decide (vm.get? flag.var = some (.bool true))))
    rw [hx]
    cases b <;> rfl
  temps := rfl

end Vm

namespace Cpu

open SuperH.Expr SuperH.Effect

variable {x : Frame}

/-! ## Putting SR together -/

theorem flagWord_shl (st : State) (flag : Flag) (amount : Nat) :
    st.flagWord flag <<< amount = BitVec.ofNat 32 ((st.flag flag).toNat <<< amount) := by
  rw [BitVec.toNat_eq, BitVec.toNat_shiftLeft, BitVec.toNat_ofNat, State.toNat_flagWord]

theorem Evals.foldl_flags (fs : List Flag) {e : Expr} {n : Nat} (h : Evals x e (.word (BitVec.ofNat 32 n))) :
    Evals x (fs.foldl (fun sr flag => sr.bitOr (flag.word.shl (.const 32 flag.bit))) e)
      (.word (BitVec.ofNat 32 (fs.foldl (fun sr flag => sr ||| (x.flag flag).toNat <<< flag.bit) n))) := by
  induction fs generalizing e n with
  | nil => exact h
  | cons flag fs ih =>
    refine ih ?_
    have hshift : (BitVec.ofNat 32 flag.bit).toNat = flag.bit := by
      rw [BitVec.toNat_ofNat, Nat.mod_eq_of_lt (Nat.lt_trans flag.bit_lt (by decide))]
    have hor := h.bitOr ((Evals.flagWord flag).shl (Evals.const flag.bit word_pos))
    rwa [hshift, flagWord_shl, ← BitVec.ofNat_or] at hor

theorem Evals.statusExpr : Evals x statusExpr (.bits (FlagSet.pack x.flag)) := by
  have h := Evals.foldl_flags Flag.all (Evals.const (x := x) 0 word_pos)
  rw [Value.word, Bits.ofBitVec_ofNat] at h
  exact h

theorem eval_statusExpr {vm : Vm} (h : vm.SetUpBy (.derive profile)) {σ : Type} [Bus σ] (bus : σ) :
    vm.eval statusExpr bus = .ok (.bits vm.flags.pack) bus := by
  have hflag : vm.frame.flag = vm.flags := rfl
  rw [← hflag]
  exact Evals.statusExpr.eval bus h.shows

/-! ## Splitting SR -/

/-- A flag is what the bits that set it say. -/
theorem Evals.unpack {v : BitVec 32} (h : x.temps.lookup "sr_val" = some (.word v)) (flag : Flag) :
    Evals x ((Expr.temp "sr_val").bitAnd (.const 32 flag.mask)).nonZero
      (.bool (FlagSet.unpack (.ofBitVec v word_pos) flag)) := by
  have hlt : flag.mask < 2 ^ 32 := by cases flag <;> decide
  have hand : (v &&& BitVec.ofNat 32 flag.mask != 0) = FlagSet.unpack (.ofBitVec v word_pos) flag := by
    rw [FlagSet.unpack, Bits.toNat_ofBitVec, Bool.eq_iff_iff, bne_iff_ne, bne_iff_ne, Ne, BitVec.toNat_eq, BitVec.toNat_and,
      BitVec.toNat_ofNat, Nat.mod_eq_of_lt hlt]
    rfl
  rw [← hand]
  exact ((Evals.temp h).bitAnd (Evals.const flag.mask word_pos)).nonZero

/-- The variables with new values for the flags among them. -/
def setFlags (env : Env) (value : FlagSet) : Env :=
  env.assignAll (Flag.all.map fun flag => (flag.var, .bool (value flag)))

section

variable {env : Env} {value : FlagSet}

theorem setFlags_nodup : ((Flag.all.map fun flag => (flag.var, Value.bool (value flag))).map (·.1)).Nodup := by
  rw [List.map_map]
  exact (by decide : (Flag.all.map Flag.var).Nodup)

theorem lookup_setFlags {flag : Flag} {old : Value} (h : env.lookup flag.var = some old) :
    (setFlags env value).lookup flag.var = some (.bool (value flag)) := by
  have hvars : (Flag.all.map Flag.var).Nodup := by decide
  rw [setFlags, Env.lookup_assignAll setFlags_nodup, Env.lookup_map (fun flag => .bool (value flag)) hvars flag.mem_all, h]
  rfl

theorem setFlags_self (h : ∀ flag : Flag, env.lookup flag.var = some (.bool (value flag))) : setFlags env value = env := by
  rw [setFlags]
  refine Env.assignAll_self fun g hg => ?_
  obtain ⟨flag, -, rfl⟩ := List.mem_map.1 hg
  exact h flag

theorem lookup_setFlags_of_ne {name : String} (h : ∀ flag : Flag, name ≠ flag.var) :
    (setFlags env value).lookup name = env.lookup name := by
  have hnone : (Flag.all.map fun flag => (flag.var, Value.bool (value flag))).lookup name = none := by
    rw [Env.lookup_eq_none_iff, List.map_map]
    intro hmem
    obtain ⟨flag, -, hflag⟩ := List.mem_map.1 hmem
    exact h flag hflag.symm
  rw [setFlags, Env.lookup_assignAll setFlags_nodup, hnone]

end

variable {σ : Type} [Bus σ] {vm : Vm}

/-- Assignments to flags from values that no flag decides. -/
theorem execAll_assign (fs : List Flag) {e : Flag → Expr} {value : FlagSet} (bus : σ) (hx : Shows vm x)
    (he : ∀ {y : Frame}, y.temps = x.temps → ∀ flag, Evals y (e flag) (.bool (value flag))) :
    Machine.execAll (fs.map fun flag => flag.assign (e flag)) ⟨vm, bus⟩ = .ok () ⟨{ vm with
      globals := vm.globals.assignAll (fs.map fun flag => (flag.var, .bool (value flag))) }, bus⟩ := by
  induction fs generalizing vm x with
  | nil => rfl
  | cons flag fs ih =>
    have hfirst : Machine.exec (flag.assign (e flag)) ⟨vm, bus⟩ = .ok () ⟨vm.replace flag.var (.bool (value flag)), bus⟩ :=
      exec_setGlobal ((he rfl flag).eval bus hx) (hx.flag flag) rfl
    exact (bind_of_ok hfirst).trans (ih (hx.replace_flag flag (value flag)) he)

/-- Splitting SR sets every flag to what the value says. -/
theorem exec_setStatus_of_eval {e : Expr} {v : BitVec 32} {bus : σ} (h : vm.eval e bus = .ok (.word v) bus)
    (hx : Shows vm x) : Machine.exec (setStatus e) ⟨vm, bus⟩ = .ok () ⟨{ vm with
      temps := ("sr_val", .word v) :: vm.temps
      globals := setFlags vm.globals (FlagSet.unpack (.ofBitVec v word_pos)) }, bus⟩ := by
  have hset : Machine.exec (.setTemp "sr_val" e) ⟨vm, bus⟩ = .ok () _ := exec_setTemp h
  rw [setStatus, exec_sequence]
  refine (bind_of_ok hset).trans (execAll_assign Flag.all bus (hx.setTemp "sr_val" (.word v)) ?_)
  intro y hy flag
  refine Evals.unpack ?_ flag
  rw [hy]
  exact List.lookup_cons_self

/-- It changes no other variable of the machine. -/
theorem exec_setStatus {e : Expr} {v : Bits} (hv : v.width = 32) (h : Evals x e (.bits v)) (bus : σ) (hx : Shows vm x) :
    ∃ vm', Machine.exec (setStatus e) ⟨vm, bus⟩ = .ok () ⟨vm', bus⟩ ∧
      vm'.globals = setFlags vm.globals (FlagSet.unpack v) := by
  obtain ⟨w, rfl⟩ := Bits.exists_ofBitVec hv word_pos
  exact ⟨_, exec_setStatus_of_eval (h.eval bus hx) hx, rfl⟩

end Cpu

/-! ## Agreement -/

/-- Splitting a value of SR sets every flag as unpacking says, changes no other variable, and puts together as the packed
flags. Putting SR together always packs the flags, which unpack to themselves, so splitting it again changes nothing. -/
theorem status_codecs_agree {vm : Vm} (h : vm.SetUpBy (.derive Cpu.profile)) {σ : Type} [Bus σ] (bus : σ) :
    (∀ v : Bits, v.width = 32 → ∃ vm', Machine.exec (setStatus (.bits v)) ⟨vm, bus⟩ = .ok () ⟨vm', bus⟩ ∧
      (∀ flag : Flag, vm'.get? flag.var = some (.bool (FlagSet.unpack v flag))) ∧
      (∀ name, (∀ flag : Flag, name ≠ flag.var) → vm'.get? name = vm.get? name) ∧
      vm'.globals.map (·.1) = vm.globals.map (·.1) ∧
      vm'.eval statusExpr bus = .ok (.bits (FlagSet.unpack v).pack) bus) ∧
    vm.eval statusExpr bus = .ok (.bits vm.flags.pack) bus ∧ FlagSet.unpack vm.flags.pack = vm.flags ∧
    ∃ vm', Machine.exec (setStatus statusExpr) ⟨vm, bus⟩ = .ok () ⟨vm', bus⟩ ∧ vm'.globals = vm.globals := by
  have hx := h.shows
  refine ⟨fun v hv => ?_, Cpu.eval_statusExpr h bus, FlagSet.unpack_pack vm.flags, ?_⟩
  · obtain ⟨vm', hrun, hglobals⟩ := Cpu.exec_setStatus hv (Cpu.Evals.bits v) bus hx
    have hflags (flag : Flag) : vm'.get? flag.var = some (.bool (FlagSet.unpack v flag)) := by
      rw [Vm.get?, hglobals]
      exact Cpu.lookup_setFlags (hx.flag flag)
    refine ⟨vm', hrun, hflags, fun name hname => ?_, ?_, ?_⟩
    · rw [Vm.get?, hglobals]
      exact Cpu.lookup_setFlags_of_ne hname
    · rw [hglobals]
      exact Env.names_assignAll ..
    · have hkeeps := Machine.exec_keeps (σ := σ) Policy.any_refutes (Vm.SetUpBy.stable (.derive Cpu.profile)).closed
        (setStatus (.bits v)).within_any
      rw [Cpu.eval_statusExpr (hkeeps.of_ok hrun h) bus, Vm.flags_eq hflags]
  · have hwidth : (FlagSet.pack vm.frame.flag).width = 32 := rfl
    obtain ⟨vm', hrun, hglobals⟩ := Cpu.exec_setStatus hwidth Cpu.Evals.statusExpr bus hx
    rw [FlagSet.unpack_pack, Cpu.setFlags_self hx.flag] at hglobals
    exact ⟨vm', hrun, hglobals⟩

/-- One bit of the interrupt mask sets its flag, and the flag puts together as the lowest bit of the mask. -/
theorem status_codecs_agree_interrupts :
    let bus := LinearMemory.zeros 4
    let sr : Bits := .ofNat 32 0x80
    ∃ vm', Machine.exec (setStatus (.bits sr)) ⟨Cpu.initialVm true, bus⟩ = .ok () ⟨vm', bus⟩ ∧
      vm'.get? "sr_i" = some (.bool true) ∧ vm'.eval statusExpr bus = .ok (.bits (.ofNat 32 0x10)) bus := by
  intro bus sr
  obtain ⟨before, hnew, hset⟩ := Cpu.setupBinding_eq true
  have hvm := Vm.SetUpBy.of_setupBinding hset (Nat.succ_pos 31)
  obtain ⟨vm', hrun, hflags, -, -, heval⟩ := (status_codecs_agree hvm bus).1 sr rfl
  have hpacked : (FlagSet.unpack sr).pack = .ofNat 32 0x10 := by decide +kernel
  have hmask : FlagSet.unpack sr .i = true := by decide +kernel
  have hi := hflags .i
  rw [hmask] at hi
  rw [hpacked] at heval
  exact ⟨vm', hrun, hi, heval⟩

/-! ## The layout of SR -/

/-- A flag in a register that was written is the bit at its position. -/
theorem RegisterFile.content_flag_put {regs : RegisterFile} {r flag : Register} {v : Nat} (hc : regs.Covers r)
    (hv : v < 2 ^ r.size) (hsize : flag.size = 1) (hin : r.Holds flag.cls flag.offset) :
    decide ((regs.put r v).content flag = 1) = v.testBit (flag.offset - r.offset) := by
  have hlt : (regs.put r v).content flag < 2 ^ flag.size := content_lt
  have hbit : ((regs.put r v).content flag).testBit 0 = v.testBit (flag.offset - r.offset) := by
    rw [testBit_content, hsize, Nat.add_zero, testBit_put_of_holds hc hv hin]
    rfl
  rw [hsize, Nat.pow_one] at hlt
  rw [← hbit, Nat.testBit_zero, Nat.mod_eq_of_lt hlt]

namespace Cpu

/-- The register SR. -/
def srReg : Register := ⟨"sr", 32 * sr, 32, .gpr⟩

theorem srReg_known : profile.get? srReg.name = some srReg := by decide

/-- Loading takes each flag from its bit of SR. -/
theorem load_flags {regs : RegisterFile} (hregs : regs.profile = profile) {vm : Vm} (h : vm.SetUpBy (.derive profile))
    {v : Bits} (hv : v.width = 32) :
    ∃ vm', Sync.fromPhysical (regs.put srReg v.toNat) vm = .ok () vm' ∧
      ∀ flag : Flag, vm'.get? flag.var = some (.bool (v.testBit flag.bit)) := by
  have hprofile : (regs.put srReg v.toNat).profile = profile := hregs
  have hlinked : Sync.Linked (regs.put srReg v.toNat) boundRegs vm :=
    h.linked (hprofile ▸ profile_valid) (hprofile ▸ boundRegs_selects)
  obtain ⟨vm', hload, hvalues⟩ := Sync.exists_loaded hlinked boundRegs_nodup
  refine ⟨vm', hload, fun flag => ?_⟩
  have hlt : v.toNat < 2 ^ srReg.size := by
    have hw : srReg.size = v.width := hv.symm
    rw [hw]
    exact v.toNat_lt
  have hcovers : regs.Covers srReg := RegisterFile.covers_of_get? (hregs ▸ profile_valid) (hregs ▸ srReg_known)
  have hin : srReg.Holds (flagReg flag).cls (flagReg flag).offset :=
    ⟨rfl, Nat.le_add_right _ _, Nat.add_lt_add_left flag.bit_lt (32 * sr)⟩
  have hbit : v.toNat.testBit ((flagReg flag).offset - srReg.offset) = v.testBit flag.bit :=
    congrArg v.toNat.testBit (Nat.add_sub_cancel_left (32 * sr) flag.bit)
  have hsize : (flagReg flag).size = 1 := rfl
  have hget := hvalues (flagReg flag) (flagReg_mem flag)
  rw [RegisterFile.value, if_pos hsize, RegisterFile.content_flag_put hcovers hlt hsize hin, hbit] at hget
  exact hget

end Cpu

/-- A flag that is a single bit of SR is the same to both. -/
theorem FlagSet.unpack_eq_testBit {flag : Flag} (h : flag ≠ .i) (v : Bits) : unpack v flag = v.testBit flag.bit := by
  have hmask : flag.mask = 2 ^ flag.bit := by
    cases flag with
    | i => exact absurd rfl h
    | _ => rfl
  rw [Bool.eq_iff_iff]
  refine ⟨fun hunpack => ?_, unpack_of_testBit⟩
  obtain ⟨i, hv, hbit⟩ := unpack_eq_true_iff.1 hunpack
  rw [hmask, Nat.testBit_two_pow, decide_eq_true_iff] at hbit
  exact hbit ▸ hv

/-- Of the register SR, loading takes every flag from its lowest bit, which is what splitting SR does for all flags but
the interrupt mask. So the two agree on a value exactly if its interrupt mask is zero or has its lowest bit set. -/
theorem status_layout {vm : Vm} (h : vm.SetUpBy (.derive Cpu.profile)) {regs : RegisterFile}
    (hregs : regs.profile = Cpu.profile) {v : Bits} (hv : v.width = 32) {σ : Type} [Bus σ] (bus : σ) :
    ∃ regs' loaded split, RegisterFile.setBits "sr" v regs = .ok true regs' ∧
      Sync.fromPhysical regs' vm = .ok () loaded ∧
      Machine.exec (setStatus (.bits v)) ⟨vm, bus⟩ = .ok () ⟨split, bus⟩ ∧
      (∀ flag : Flag, loaded.get? flag.var = some (.bool (v.testBit flag.bit))) ∧
      (∀ flag : Flag, flag ≠ .i → loaded.get? flag.var = split.get? flag.var) ∧
      ((∀ flag : Flag, loaded.get? flag.var = split.get? flag.var) ↔
        (FlagSet.unpack v .i = true → v.testBit Flag.i.bit = true)) := by
  obtain ⟨loaded, hload, hloaded⟩ := Cpu.load_flags hregs h hv
  obtain ⟨split, hrun, hsplit⟩ := Cpu.exec_setStatus hv (Cpu.Evals.bits v) bus h.shows
  have hflags (flag : Flag) : split.get? flag.var = some (.bool (FlagSet.unpack v flag)) := by
    rw [Vm.get?, hsplit]
    exact Cpu.lookup_setFlags (h.shows.flag flag)
  have hwrite : RegisterFile.setBits "sr" v regs = .ok true (regs.put Cpu.srReg v.toNat) :=
    RegisterFile.setBits_eq (hregs ▸ Cpu.profile_valid) (hregs ▸ Cpu.srReg_known) hv
  have hothers : ∀ flag : Flag, flag ≠ .i → loaded.get? flag.var = split.get? flag.var := by
    intro flag hflag
    rw [hloaded, hflags, FlagSet.unpack_eq_testBit hflag]
  refine ⟨_, loaded, split, hwrite, hload, hrun, hloaded, hothers, fun hall => ?_, fun hmask flag => ?_⟩
  · have hi := hall .i
    rw [hloaded, hflags] at hi
    have hbit : v.testBit Flag.i.bit = FlagSet.unpack v .i := Value.bool.inj (Option.some.inj hi)
    exact hbit.trans
  · by_cases hflag : flag = .i
    · subst hflag
      have hbit : v.testBit Flag.i.bit = FlagSet.unpack v .i := Bool.eq_iff_iff.2 ⟨FlagSet.unpack_of_testBit, hmask⟩
      rw [hloaded, hflags, hbit]
    · exact hothers flag hflag

/-- Where the lowest bit of the interrupt mask is set, loading and splitting agree on every flag. -/
theorem status_layout_lowest_mask :
    let v : Bits := .ofNat 32 0x40000032
    let bus := LinearMemory.zeros 4
    ∃ before vm regs loaded split, Vm.setupBinding (.derive Cpu.profile) before = .ok () vm ∧
      RegisterFile.setBits "sr" v (.zeros Cpu.profile) = .ok true regs ∧ Sync.fromPhysical regs vm = .ok () loaded ∧
      Machine.exec (setStatus (.bits v)) ⟨vm, bus⟩ = .ok () ⟨split, bus⟩ ∧
      loaded.get? "sr_i" = some (.bool true) ∧ ∀ flag : Flag, loaded.get? flag.var = split.get? flag.var := by
  intro v bus
  obtain ⟨before, hnew, hset⟩ := Cpu.setupBinding_eq false
  have hvm := Vm.SetUpBy.of_setupBinding hset (Nat.succ_pos 31)
  have hregs : (RegisterFile.zeros Cpu.profile).profile = Cpu.profile := rfl
  have hbit : v.testBit Flag.i.bit = true := by decide +kernel
  obtain ⟨regs, loaded, split, hwrite, hload, hrun, hloaded, -, hall⟩ := status_layout hvm hregs (rfl : v.width = 32) bus
  have hi := hloaded .i
  rw [hbit] at hi
  exact ⟨before, _, regs, loaded, split, hset, hwrite, hload, hrun, hi, hall.2 fun _ => hbit⟩

/-- The interrupt mask 2 is lost in loading: the flag is false, although one of its bits is set. -/
theorem interrupt_mask_lost :
    let v : Bits := .ofNat 32 0x20
    ∃ before vm regs loaded, Vm.setupBinding (.derive Cpu.profile) before = .ok () vm ∧
      RegisterFile.setBits "sr" v (.zeros Cpu.profile) = .ok true regs ∧ Sync.fromPhysical regs vm = .ok () loaded ∧
      FlagSet.unpack v .i = true ∧ loaded.get? "sr_i" = some (.bool false) := by
  intro v
  obtain ⟨before, hnew, hset⟩ := Cpu.setupBinding_eq false
  have hvm := Vm.SetUpBy.of_setupBinding hset (Nat.succ_pos 31)
  have hv : v.width = 32 := rfl
  have hwrite : RegisterFile.setBits "sr" v (.zeros Cpu.profile) = .ok true _ :=
    RegisterFile.setBits_eq Cpu.profile_valid Cpu.srReg_known hv
  obtain ⟨loaded, hload, hflags⟩ := Cpu.load_flags (rfl : (RegisterFile.zeros Cpu.profile).profile = Cpu.profile) hvm hv
  have hbit : v.testBit Flag.i.bit = false := by decide +kernel
  have hi := hflags .i
  rw [hbit] at hi
  exact ⟨before, _, _, loaded, hset, hwrite, hload, by decide +kernel, hi⟩

end SuperH
