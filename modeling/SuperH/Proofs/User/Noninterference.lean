import SuperH.Memory.Linear
import SuperH.Proofs.User.Confinement
import SuperH.Proofs.Vm.Agree

/-!
# User mode does not see privileged state

* `RegisterFile.UserAlike` : two register files agree on what user mode reaches;
* `Cpu.Agree` : the same of the contents of their registers;
* `Cpu.UserVm` : an interpreter in user mode, which stays one through every effect of user mode;
* `Cpu.call_agree` : one call from both answers alike and leaves them in agreement;
* `user_mode_noninterference` : any number of calls.
-/

namespace SuperH

/-- The register files agree on the program counter and on all registers and flags of user mode. -/
def RegisterFile.UserAlike (regs regs' : RegisterFile) : Prop :=
  ∀ name ∈ "pc" :: Cpu.userNames, regs.getBits name = regs'.getBits name

namespace Cpu

variable {bigEndian : Bool} {regs regs' : RegisterFile} {vm : Vm}

/-! ## Agreement -/

/-- The program counter and the registers that user mode is not kept from have equal contents. -/
structure Agree (regs regs' : RegisterFile) : Prop where
  pc : regs.content pcReg = regs'.content pcReg
  content : ∀ r ∈ boundRegs, r.name ∉ privilegedNames → regs.content r = regs'.content r

theorem agree_iff (hp : regs.profile = profile) (hp' : regs'.profile = profile) :
    Agree regs regs' ↔ regs.UserAlike regs' := by
  constructor
  · intro h name hname
    rcases List.mem_cons.1 hname with rfl | hname
    · exact (getBits_inj hp hp' pcReg_known).2 h.pc
    · obtain ⟨r, hr, rfl, hfree⟩ := exists_of_user name hname
      exact (getBits_inj hp hp' (boundRegs_known r hr)).2 (h.content r hr hfree)
  · intro h
    refine ⟨(getBits_inj hp hp' pcReg_known).1 (h "pc" (List.mem_cons_self ..)), fun r hr hfree => ?_⟩
    have hname : r.name ∈ userNames := (boundRegs_split r hr).resolve_left hfree
    exact (getBits_inj hp hp' (boundRegs_known r hr)).1 (h r.name (List.mem_cons_of_mem _ hname))

theorem Agree.put_pc (h : Agree regs regs') (hp : regs.profile = profile) (hp' : regs'.profile = profile) {v : Nat}
    (hv : v < 2 ^ 32) : Agree (regs.put pcReg v) (regs'.put pcReg v) where
  pc := (RegisterFile.content_put_self (pcReg_covered hp) hv).trans
    (RegisterFile.content_put_self (pcReg_covered hp') hv).symm
  content r hr hfree := by
    have hapart := (pcReg_apart r hr).symm
    rw [RegisterFile.content_put_of_apart (boundRegs_fits r hr) pcReg_fits hapart hv,
      RegisterFile.content_put_of_apart (boundRegs_fits r hr) pcReg_fits hapart hv, h.content r hr hfree]

/-- Interpreters loaded from registers that agree differ only in what user mode is kept from. -/
theorem Agree.like_loadedVm (h : Agree regs regs') :
    (loadedVm bigEndian regs).Like .user (loadedVm bigEndian regs') where
  config := rfl
  pc := congrArg (Bits.ofNat 32) h.pc
  temps := rfl
  events := rfl
  jumped := rfl
  vars name hname := by
    by_cases hbound : name ∈ boundRegs.map (·.name)
    · obtain ⟨r, hr, rfl⟩ := List.mem_map.1 hbound
      rw [get?_loadedVm hr, get?_loadedVm hr, RegisterFile.value, RegisterFile.value, h.content r hr hname]
    · rw [get?_loadedVm_eq_none hbound, get?_loadedVm_eq_none hbound]

/-! ## Interpreters in user mode -/

/-- The interpreter's privileged variables are those of some registers in user mode. -/
def UserVm (bigEndian : Bool) (vm : Vm) : Prop :=
  ∃ regs : RegisterFile, regs.content (flagReg .md) = 0 ∧ Confined bigEndian regs vm

theorem userVm_loadedVm (hmode : regs.content (flagReg .md) = 0) : UserVm bigEndian (loadedVm bigEndian regs) :=
  ⟨regs, hmode, confined_loadedVm⟩

theorem UserVm.stable (bigEndian : Bool) : Policy.user.Stable (UserVm bigEndian) where
  global hname hold hs := fun ⟨regs, hmode, h⟩ => ⟨regs, hmode, (Confined.stable bigEndian regs).global hname hold hs h⟩
  start := fun ⟨regs, hmode, h⟩ => ⟨regs, hmode, (Confined.stable bigEndian regs).start h⟩
  temp := fun ⟨regs, hmode, h⟩ => ⟨regs, hmode, (Confined.stable bigEndian regs).temp h⟩
  pc hpos := fun ⟨regs, hmode, h⟩ => ⟨regs, hmode, (Confined.stable bigEndian regs).pc hpos h⟩
  jumped := fun ⟨regs, hmode, h⟩ => ⟨regs, hmode, (Confined.stable bigEndian regs).jumped h⟩
  raise hr := hr.elim

theorem UserVm.refutes {σ : Type} [Bus σ] : Policy.user.Refutes σ (UserVm bigEndian) := by
  rintro c vm hc ⟨regs, hmode, h⟩
  exact Confined.refutes hmode c vm hc h

theorem UserVm.ready (h : UserVm bigEndian vm) : Ready bigEndian vm := by
  obtain ⟨regs, -, h⟩ := h
  exact h.toReady

/-! ## One call -/

variable {σ : Type} [Bus σ] {insn : Insn} {m m' : Machine σ}

omit [Bus σ] in
/-- Writing back to registers from machines that are alike makes the registers agree. -/
theorem agree_writeBack (h : m.Like .user (UserVm bigEndian) m') (hp : regs.profile = profile)
    (hp' : regs'.profile = profile) : Agree (writeBack m.vm regs) (writeBack m'.vm regs') where
  pc := by rw [h.left.ready.content_pc_writeBack hp, h.right.ready.content_pc_writeBack hp', h.vm.pc]
  content r hr hfree := by
    rw [h.left.ready.content_writeBack hp hr, h.right.ready.content_writeBack hp' hr, Sync.number, Sync.number,
      h.vm.vars r.name hfree]

/-- An instruction means the same to interpreters in user mode at the same program counter. -/
theorem Agree.liftFor_eq (h : Agree regs regs') (hmode : regs.content (flagReg .md) = 0)
    (hmode' : regs'.content (flagReg .md) = 0) :
    liftFor (loadedVm bigEndian regs) insn = liftFor (loadedVm bigEndian regs') insn := by
  unfold liftFor
  rw [privileged_loadedVm hmode, privileged_loadedVm hmode', fetchAddress_loadedVm, fetchAddress_loadedVm, h.pc]

/-- In user mode a call answers alike from registers that agree, and leaves equal memories and registers that
agree. -/
theorem call_agree (h : Agree regs regs') (hp : regs.profile = profile) (hp' : regs'.profile = profile)
    (hmode : regs.content (flagReg .md) = 0) (hmode' : regs'.content (flagReg .md) = 0) (hwf : insn.WellFormed) (bus : σ) :
    (call bigEndian insn regs bus).1 = (call bigEndian insn regs' bus).1 ∧
      Agree (call bigEndian insn regs bus).2.1 (call bigEndian insn regs' bus).2.1 ∧
      (call bigEndian insn regs bus).2.2 = (call bigEndian insn regs' bus).2.2 := by
  by_cases hpriv : insn.IsPrivileged
  · rw [call_of_privileged hmode hwf hpriv, call_of_privileged hmode' hwf hpriv, h.pc]
    exact ⟨rfl, h.put_pc hp hp' (Nat.mod_lt _ (Nat.two_pow_pos 32)), rfl⟩
  unfold call
  dsimp only
  rw [← h.liftFor_eq hmode hmode', fetchAddress_loadedVm, fetchAddress_loadedVm, ← h.pc]
  cases hlift : liftFor (loadedVm bigEndian regs) insn with
  | error trap => exact ⟨rfl, h, rfl⟩
  | ok lifted =>
    obtain ⟨e, rfl, he⟩ := effect_of_liftFor hmode hwf hpriv hlift
    have hstart : Machine.Like .user (UserVm bigEndian) (⟨loadedVm bigEndian regs, bus⟩ : Machine σ)
        ⟨loadedVm bigEndian regs', bus⟩ :=
      ⟨rfl, h.like_loadedVm, userVm_loadedVm hmode, userVm_loadedVm hmode'⟩
    dsimp only
    rcases (Machine.step_effect_matches UserVm.refutes (UserVm.stable bigEndian) he insnBytes).cases hstart with
      ⟨u, m, m', hs, ht, hlike⟩ | ⟨f, m, m', hs, ht, hlike⟩
    · rw [hs, ht]
      dsimp only
      rw [hlike.vm.events]
      exact ⟨rfl, agree_writeBack hlike hp hp', hlike.bus⟩
    · rw [hs, ht]
      exact ⟨rfl, h, hlike.bus⟩

end Cpu

/-! ## Any number of calls -/

variable {σ : Type} [Bus σ] {bigEndian : Bool}

/-- Two machines in user mode, with equal memories, that agree on what user mode reaches. -/
structure Computer.UserAlike (bigEndian : Bool) (c c' : Computer σ) : Prop where
  left : c.session.Reachable bigEndian
  right : c'.session.Reachable bigEndian
  mode : c.session.regs.content (Cpu.flagReg .md) = 0
  mode' : c'.session.regs.content (Cpu.flagReg .md) = 0
  regs : Cpu.Agree c.session.regs c'.session.regs
  bus : c.bus = c'.bus

theorem Computer.UserAlike.execute {c c' : Computer σ} (h : c.UserAlike bigEndian c') {insn : Insn}
    (hwf : insn.WellFormed) :
    outcome (execute insn c) = outcome (execute insn c') ∧
      (final (execute insn c)).UserAlike bigEndian (final (execute insn c')) := by
  have hcall : observe (Computer.execute insn c) = Cpu.call bigEndian insn c.session.regs c.bus :=
    h.left.live.observe_execute insn c.bus
  have hcall' : observe (Computer.execute insn c') = Cpu.call bigEndian insn c'.session.regs c.bus := by
    rw [h.bus]
    exact h.right.live.observe_execute insn c'.bus
  have hagree := @Cpu.call_agree bigEndian _ _ _ _ _ h.regs h.left.live.profile h.right.live.profile h.mode h.mode' hwf
    c.bus
  rw [← hcall, ← hcall'] at hagree
  obtain ⟨hout, hregs, hbus⟩ := hagree
  exact ⟨hout, {
    left := h.left.execute insn c.bus
    right := h.right.execute insn c'.bus
    mode := h.left.mode_execute h.mode hwf
    mode' := h.right.mode_execute h.mode' hwf
    regs := hregs
    bus := hbus }⟩

/-- Machines that are alike answer every call of a run alike, and are still alike after it. -/
theorem Computer.UserAlike.executeAll {c c' : Computer σ} (h : c.UserAlike bigEndian c') {insns : List Insn}
    (hinsns : ∀ i ∈ insns, i.WellFormed) :
    (executeAll insns c).1 = (executeAll insns c').1 ∧
      (executeAll insns c).2.UserAlike bigEndian (executeAll insns c').2 := by
  induction insns generalizing c c' with
  | nil => exact ⟨rfl, h⟩
  | cons insn insns ih =>
    obtain ⟨hfirst, hnext⟩ := h.execute (hinsns insn (List.mem_cons_self ..))
    obtain ⟨hrest, hlast⟩ := ih hnext fun i hi => hinsns i (List.mem_cons_of_mem _ hi)
    refine ⟨?_, hlast⟩
    show outcome (Computer.execute insn c) :: _ = outcome (Computer.execute insn c') :: _
    rw [hfirst, hrest]

/-- Two sessions of the machine in user mode that agree on what user mode reaches, whatever their privileged registers
hold, answer every call of a run of well-formed instructions alike on equal memories. They leave equal memories, and
still agree. -/
theorem user_mode_noninterference {s s' : Session} (hs : s.Reachable bigEndian) (hs' : s'.Reachable bigEndian)
    (hmode : s.regs.UserMode) (hmode' : s'.regs.UserMode) (halike : s.regs.UserAlike s'.regs) (bus : σ)
    {insns : List Insn} (hinsns : ∀ i ∈ insns, i.WellFormed) :
    let r := Computer.executeAll insns ⟨s, bus⟩
    let r' := Computer.executeAll insns ⟨s', bus⟩
    r.1 = r'.1 ∧ r.2.bus = r'.2.bus ∧ r.2.session.regs.UserAlike r'.2.session.regs := by
  intro r r'
  have hp := hs.live.profile
  have hp' := hs'.live.profile
  have hstart : Computer.UserAlike bigEndian (⟨s, bus⟩ : Computer σ) ⟨s', bus⟩ := {
    left := hs
    right := hs'
    mode := (Cpu.userMode_iff hp).1 hmode
    mode' := (Cpu.userMode_iff hp').1 hmode'
    regs := (Cpu.agree_iff hp hp').2 halike
    bus := rfl }
  obtain ⟨hout, hend⟩ := hstart.executeAll hinsns
  exact ⟨hout, hend.bus, (Cpu.agree_iff hend.left.live.profile hend.right.live.profile).1 hend.regs⟩

/-- A move of R0, which is banked, and RTE: the second session has selected bank 1, and holds another R0 there. -/
theorem user_mode_noninterference_banked :
    let regs := RegisterFile.zeros Cpu.profile
    let s : Session := ⟨Cpu.initialVm false, regs, lift⟩
    let s' : Session := { s with
      regs := final (RegisterFile.set "r0b" 5 (final (RegisterFile.set "sr_r" 1 regs))) }
    let insns : List Insn := [⟨.mov, [.reg 0, .reg 1], .long, 0x6103⟩, ⟨.rte, [], .unsized, 0x002b⟩]
    let r := Computer.executeAll insns ⟨s, LinearMemory.zeros 4⟩
    let r' := Computer.executeAll insns ⟨s', LinearMemory.zeros 4⟩
    s.Reachable false ∧ s'.Reachable false ∧ s.regs.UserMode ∧ s'.regs.UserMode ∧
      s.regs.getBits "r0b" ≠ s'.regs.getBits "r0b" ∧ s.regs.UserAlike s'.regs ∧
      r.1 = r'.1 ∧ r.2.bus = r'.2.bus ∧ r.2.session.regs.UserAlike r'.2.session.regs := by
  intro regs s s' insns r r'
  have hs : s.Reachable false := .start (Session.sh4_eq false)
  have hs' : s'.Reachable false := hs.write (by decide +kernel)
  have hmode : s.regs.UserMode := by
    show s.regs.get "sr_d" = .ok (some 0)
    decide +kernel
  have hmode' : s'.regs.UserMode := by
    show s'.regs.get "sr_d" = .ok (some 0)
    decide +kernel
  have hdiffer : s.regs.getBits "r0b" ≠ s'.regs.getBits "r0b" := by decide +kernel
  have halike : s.regs.UserAlike s'.regs := by
    show ∀ name ∈ "pc" :: Cpu.userNames, s.regs.getBits name = s'.regs.getBits name
    decide +kernel
  have hinsns : ∀ i ∈ insns, i.WellFormed := by
    intro i hi
    rcases List.mem_cons.1 hi with rfl | hi
    · exact Insn.wellFormed_of_general (by decide) (by decide)
    · obtain rfl := List.mem_singleton.1 hi
      exact Insn.wellFormed_of_general (by decide) (by decide)
  -- with the registers in sight the runs would be evaluated
  clear_value s s'
  exact ⟨hs, hs', hmode, hmode', hdiffer, halike, user_mode_noninterference hs hs' hmode hmode' halike _ hinsns⟩

end SuperH
