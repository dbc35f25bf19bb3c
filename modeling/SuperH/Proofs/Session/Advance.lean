import SuperH.Memory.Linear
import SuperH.Proofs.Session.Execute
import SuperH.Proofs.Vm.ProgramCounter
import SuperH.Proofs.Vm.RoundTrip

/-!
# Sessions over any profile

* `Session.Over` : the sessions over a profile, of any configuration and with any lifter, that calls and writes to the
  registers lead to;
* `Session.SetUp` : what holds of all of them (`Session.Over.setUp`);
* `Session.pc_survives_iff` : for which profiles the program counter survives the write-back, and how the sessions over
  them advance.
-/

namespace SuperH

namespace Session

/-- The sessions over a profile that any calls lead to, with any instructions and on any memories, and any writes to the
registers between them. -/
inductive Over (p : Profile) : Session → Prop
  | start {config : VmConfig} {lifter : Lifter} {s : Session} : new p config lifter = .ok s → Over p s
  | write {s : Session} {regs : RegisterFile} : Over p s → regs.profile = s.regs.profile → Over p { s with regs }
  | execute {s : Session} {σ : Type} [Bus σ] (insn : Insn) (bus : σ) : Over p s →
      Over p (final (Computer.execute insn ⟨s, bus⟩)).session

/-- A session between two calls: its registers are the profile's, and the derived binding is set up. -/
structure SetUp (p : Profile) (s : Session) : Prop where
  profile : s.regs.profile = p
  vm : s.vm.SetUpBy (.derive p)

variable {p : Profile} {s : Session} {σ : Type} [Bus σ]

theorem setUp_of_new {config : VmConfig} {lifter : Lifter} (h : new p config lifter = .ok s) : s.SetUp p := by
  obtain ⟨vm, vm', hvm, hset, rfl⟩ := new_eq_ok h
  have hpos := Vm.pcBits_pos_of_new hvm
  obtain ⟨-, -, -, hvm'⟩ := Vm.setupBinding_eq_ok hset
  refine ⟨rfl, .of_setupBinding hset ?_⟩
  rw [hvm']
  exact hpos

theorem SetUp.linked (h : s.SetUp p) (hp : p.Valid) {vm : Vm} (hvm : vm.SetUpBy (.derive p)) :
    Sync.Linked s.regs (Binding.registers p) vm := by
  obtain ⟨rfl, -⟩ := h
  exact hvm.linked hp (Binding.derive_selects hp)

/-- A loaded interpreter is still set up. -/
theorem SetUp.load (h : s.SetUp p) (hp : p.Valid) (pc : Bits) :
    Vm.SetUpBy (.derive p) { Sync.loadAll s.regs (Binding.registers p) s.vm with pc } := by
  have hlinked := h.linked hp h.vm
  have hloaded := hlinked.load (Binding.registers_nodup hp) pc
  refine h.vm.transfer rfl rfl ?_
  intro x hx
  obtain ⟨r, hr, rfl⟩ := (Binding.derive_selects hp).mem_items_iff.1 hx
  exact (hloaded.sorts r hr).trans (hlinked.sorts r hr).symm

/-- A call leaves a session set up, whatever it answers. -/
theorem SetUp.execute (h : s.SetUp p) (hp : p.Valid) (insn : Insn) (bus : σ) :
    (final (Computer.execute insn ⟨s, bus⟩)).session.SetUp p := by
  obtain ⟨pc, hload⟩ := Sync.fromPhysical_ok (h.linked hp h.vm)
  have hvm := h.load hp pc
  rw [Computer.execute_eq, hload]
  generalize { Sync.loadAll s.regs (Binding.registers p) s.vm with pc } = vm at hvm
  dsimp only
  cases { s with vm := vm }.liftAt insn (Computer.fetchAddress vm) with
  | error trap => exact ⟨h.profile, hvm⟩
  | ok lifted =>
    have hkeeps := Machine.step_keeps (σ := σ) Policy.any_refutes (Vm.SetUpBy.stable _) lifted.within_any insnBytes
      ⟨vm, bus⟩ hvm
    dsimp only
    cases hstep : Machine.step lifted insnBytes (⟨vm, bus⟩ : Machine σ) with
    | error e m =>
      rw [hstep] at hkeeps
      exact ⟨h.profile, hkeeps⟩
    | ok u m =>
      rw [hstep] at hkeeps
      obtain ⟨whole, hback⟩ := Sync.toPhysical_ok (h.linked hp hkeeps)
      have hprofile : (Sync.putAll m.vm (Binding.registers p) (Sync.putPc m.vm s.regs)).profile = p := by
        rw [Sync.profile_putAll, Sync.profile_putPc, h.profile]
      have htaken : Vm.SetUpBy (.derive p) { m.vm with events := [] } := hkeeps.transfer rfl rfl fun _ _ => rfl
      dsimp only
      rw [hback]
      dsimp only
      split
      · exact ⟨hprofile, htaken⟩
      · exact ⟨hprofile, htaken⟩

namespace Over

theorem execute_keeps (insn : Insn) : Keeps (fun c : Computer σ => Over p c.session) (Computer.execute insn) :=
  Keeps.of_final fun c hc => hc.execute insn c.bus

/-- Running until an address leads to such sessions, too. -/
theorem runUntil_keeps (decode : UInt16 → Option Insn) (stop : Address) (done n : Nat) :
    Keeps (fun c : Computer σ => Over p c.session) (Computer.runUntil decode stop done n) :=
  Computer.runUntil_keeps execute_keeps decode stop done n

theorem setUp (hp : p.Valid) (h : Over p s) : s.SetUp p := by
  induction h with
  | start h => exact setUp_of_new h
  | write _ hregs ih => exact ⟨hregs.trans ih.profile, ih.vm⟩
  | execute insn bus _ ih => exact ih.execute hp insn bus

end Over

/-- Where no bound register reaches into the program counter, an instruction that does not jump moves it by its size. -/
theorem SetUp.advance (h : s.SetUp p) (hp : p.Valid) (hapart : p.PcApart) {pc : Register}
    (hpc : p.pcRegister? = some pc) {insn : Insn} {bus : σ} {t : Computer σ}
    (hcall : Computer.execute insn ⟨s, bus⟩ = .ok () t) (hjump : t.session.vm.jumped = false) :
    t.session.regs.content pc = (s.regs.content pc + insnBytes) % 2 ^ s.vm.config.pcBits % 2 ^ pc.size := by
  obtain ⟨vm, lifted, m, whole, regs, hload, hstep, hback, rfl⟩ := Computer.execute_eq_ok hcall
  have hlinked := h.linked hp h.vm
  have hpc' : s.regs.profile.pcRegister? = some pc := by
    rw [h.profile]
    exact hpc
  rw [Sync.fromPhysical_eq hlinked hpc'] at hload
  cases hload
  have hvm := h.load hp (.ofNat s.vm.config.pcBits (s.regs.content pc) hlinked.pcBits)
  have hkeeps := Machine.step_keeps (σ := σ) Policy.any_refutes (Vm.SetUpBy.stable (.derive p)) lifted.within_any insnBytes
  have hlinked' := h.linked hp (hkeeps.of_ok hstep hvm)
  have hadvances := Machine.step_advances rfl hstep hjump
  rw [Sync.toPhysical_eq hlinked' hpc'] at hback
  cases hback
  show (Sync.putAll m.vm _ _).content pc = _
  rw [Sync.content_pc hlinked' hpc' (hapart.apart hp hpc), hadvances, Bits.toNat_ofNat, Nat.mod_add_mod]

/-- The program counter survives every write-back exactly if no bound register has a bit in common with it. If so, every
instruction that does not jump moves the program counter of a session by its size. -/
theorem pc_survives_iff (hp : p.validate = .ok ()) :
    (Sync.KeepsPc p ↔ p.PcApart) ∧
      (p.PcApart → ∀ s, Over p s → ∀ pc, p.pcRegister? = some pc →
        ∀ (σ : Type) [Bus σ] (insn : Insn) (bus : σ) (t : Computer σ),
          Computer.execute insn ⟨s, bus⟩ = .ok () t → t.session.vm.jumped = false →
          ∃ old new, s.regs.getBits pc.name = .ok (some old) ∧ t.session.regs.getBits pc.name = .ok (some new) ∧
            new.toNat = (old.toNat + insnBytes) % 2 ^ s.vm.config.pcBits % 2 ^ pc.size) := by
  refine ⟨Sync.keepsPc_iff hp, ?_⟩
  intro hapart s hs pc hpc σ _ insn bus t hcall hjump
  have hvalid := Profile.valid_of_validate hp
  have h := hs.setUp hvalid
  have h' : t.session.SetUp p := by
    have hfinal := h.execute hvalid insn bus
    rw [hcall] at hfinal
    exact hfinal
  have hread : ∀ {u : Session}, u.SetUp p → ∃ v, u.regs.getBits pc.name = .ok (some v) ∧ v.toNat = u.regs.content pc := by
    rintro u ⟨rfl, -⟩
    exact RegisterFile.exists_getBits hvalid (Profile.get?_of_pcRegister? hpc)
  obtain ⟨old, hold, holdNat⟩ := hread h
  obtain ⟨new, hnew, hnewNat⟩ := hread h'
  refine ⟨old, new, hold, hnew, ?_⟩
  rw [holdNat, hnewNat]
  exact h.advance hvalid hapart hpc hcall hjump

/-- A layout in which the program counter stands alone: the first instruction moves it from zero to two. -/
theorem pc_survives_alone :
    let p : Profile := ⟨[⟨"r0", 0, 32, .gpr⟩, ⟨"pc", 32, 32, .gpr⟩, ⟨"t", 64, 1, .gpr⟩], some "pc"⟩
    p.validate = .ok () ∧ Sync.KeepsPc p ∧
      ∃ (s : Session) (t : Computer LinearMemory) (new : Bits), Session.new p {} lift = .ok s ∧
        Computer.execute { mnemonic := .nop } ⟨s, LinearMemory.zeros 4⟩ = .ok () t ∧
        t.session.regs.getBits "pc" = .ok (some new) ∧ new.toNat = 2 := by
  intro p
  have hp : p.validate = .ok () := by decide
  have hapart : p.PcApart := by decide
  let s : Session := ⟨{
    config := {}
    pc := .zero 32 (by decide)
    globals := [("t", .bool false), ("r0", .bits (.zero 32 (by decide)))]
    binding := some [⟨⟨"t", 1⟩, true⟩, ⟨⟨"r0", 32⟩, true⟩] }, .zeros p, lift⟩
  have hs : Session.new p {} lift = .ok s := rfl
  have hout : outcome (Computer.execute { mnemonic := .nop } ⟨s, LinearMemory.zeros 4⟩) = .ok () := by decide +kernel
  have hjump : (final (Computer.execute { mnemonic := .nop } ⟨s, LinearMemory.zeros 4⟩)).session.vm.jumped = false := by
    decide +kernel
  have hcall := eq_ok_iff.2 ⟨hout, rfl⟩
  obtain ⟨old, new, hold, hnew, hadd⟩ := (pc_survives_iff hp).2 hapart s (.start hs) ⟨"pc", 32, 32, .gpr⟩ (by decide)
    LinearMemory { mnemonic := .nop } _ _ hcall hjump
  have hzero : old.toNat = 0 := by
    cases hold
    decide
  rw [hzero] at hadd
  exact ⟨hp, (pc_survives_iff hp).1.2 hapart, s, _, new, hs, hcall, hnew, hadd⟩

/-- A wider register around the program counter is bound, and its old bits are written over the new program counter: the
write-back answers that it was exact, and a session stays at one instruction. -/
theorem pc_lost_in_context :
    let p : Profile := ⟨[⟨"ctx", 0, 64, .gpr⟩, ⟨"pc", 32, 32, .gpr⟩], some "pc"⟩
    p.validate = .ok () ∧ ¬ Sync.KeepsPc p ∧
      (∃ vm : Vm, vm.SetUpBy (.derive p) ∧ vm.pc.toNat = 2 ∧ Sync.toPhysical vm (.zeros p) = .ok true (.zeros p)) ∧
      ∃ (s : Session) (t : Computer LinearMemory), Session.new p {} lift = .ok s ∧
        Computer.execute { mnemonic := .nop } ⟨s, LinearMemory.zeros 4⟩ = .ok () t ∧ t.session.vm.jumped = false ∧
        t.session.regs = s.regs := by
  intro p
  have hp : p.validate = .ok () := by decide
  let vm : Vm := {
    config := {}
    pc := .ofNat 32 2 (by decide)
    globals := [("ctx", .bits (.zero 64 (by decide)))]
    binding := some [⟨⟨"ctx", 64⟩, true⟩] }
  have hset : Vm.setupBinding (.derive p) { config := {}, pc := .ofNat 32 2 (by decide) } = .ok () vm := rfl
  have hvm := Vm.SetUpBy.of_setupBinding hset (by decide)
  have hback : Sync.toPhysical vm (.zeros p) = .ok true (.zeros p) :=
    eq_ok_iff.2 ⟨by decide +kernel, by decide +kernel⟩
  refine ⟨hp, ?_, ⟨vm, hvm, by decide, hback⟩, ?_⟩
  · intro hkeeps
    obtain ⟨whole, regs, v, hwritten, hfit, hread⟩ := hkeeps vm (.zeros p) hvm rfl ⟨"pc", 32, 32, .gpr⟩ (by decide)
    rw [hback] at hwritten
    cases hwritten
    have hzero : (RegisterFile.zeros p).getBits "pc" = .ok (some (.zero 32 (by decide))) := by decide +kernel
    have hv := hread.symm.trans hzero
    cases hv
    exact absurd hfit (by decide +kernel)
  · let s : Session := ⟨{ vm with pc := .zero 32 (by decide) }, .zeros p, lift⟩
    have hs : Session.new p {} lift = .ok s := rfl
    have hout : outcome (Computer.execute { mnemonic := .nop } ⟨s, LinearMemory.zeros 4⟩) = .ok () := by decide +kernel
    have hstays : (final (Computer.execute { mnemonic := .nop } ⟨s, LinearMemory.zeros 4⟩)).session.vm.jumped = false ∧
        (final (Computer.execute { mnemonic := .nop } ⟨s, LinearMemory.zeros 4⟩)).session.regs = s.regs := by
      decide +kernel
    exact ⟨s, _, hs, eq_ok_iff.2 ⟨hout, rfl⟩, hstays⟩

end Session
end SuperH
