import SuperH.Memory.Linear
import SuperH.Proofs.Session.Live

/-!
# Sessions are memoryless

* `execute_memoryless` : a call that fails leaves the registers alone, and what calls leave in the interpreter decides
  nothing about the calls after them.
-/

namespace SuperH

/-- A call that ends in a trap other than an exception leaves every bit of the registers as it was, whatever lifter and
state the session has. And two sessions of the machine with equal registers, however they came about, answer a call on
equal memories alike and leave equal registers and equal memories: nothing that earlier calls left in the interpreter
counts, not even those that failed halfway. -/
theorem execute_memoryless {σ : Type} [Bus σ] (insn : Insn) :
    (∀ (s t : Computer σ) (trap : Trap), Computer.execute insn s = .error (.error trap) t →
      (∀ pc name, trap ≠ .exception pc name) → t.session.regs = s.session.regs) ∧
    ∀ (bigEndian : Bool) (s₁ s₂ : Session) (bus : σ), s₁.Reachable bigEndian → s₂.Reachable bigEndian →
      s₁.regs = s₂.regs →
      Computer.observe (Computer.execute insn ⟨s₁, bus⟩) = Computer.observe (Computer.execute insn ⟨s₂, bus⟩) := by
  refine ⟨fun s t trap => Computer.regs_of_trap, fun bigEndian s₁ s₂ bus h₁ h₂ hregs => ?_⟩
  calc
    Computer.observe (Computer.execute insn ⟨s₁, bus⟩) = Cpu.call bigEndian insn s₁.regs bus :=
      h₁.live.observe_execute insn bus
    _ = Cpu.call bigEndian insn s₂.regs bus := by rw [hregs]
    _ = Computer.observe (Computer.execute insn ⟨s₂, bus⟩) := (h₂.live.observe_execute insn bus).symm

/-- The first session of the machine, and the same session after a store that decrements R1 and then leaves the
memory. -/
theorem execute_memoryless_after_fault :
    let start : Session := ⟨Cpu.initialVm false, .zeros Cpu.profile, lift⟩
    let bus := LinearMemory.zeros 4
    ∃ failed : Computer LinearMemory,
      Computer.execute ⟨.mov, [.reg 0, .preDec 1], .long, 0x2106⟩ ⟨start, bus⟩ =
        .error (.error (.vm (.bus 0xfffffffc (.outside 0xfffffffc 1 4)))) failed ∧
      failed.session.regs = start.regs ∧
      Computer.observe (Computer.execute ⟨.add, [.reg 1, .reg 2], .long, 0x321c⟩ ⟨start, bus⟩) =
        Computer.observe (Computer.execute ⟨.add, [.reg 1, .reg 2], .long, 0x321c⟩ ⟨failed.session, bus⟩) := by
  intro start bus
  have hstart : start.Reachable false := .start (Session.sh4_eq false)
  have hout : outcome (Computer.execute ⟨.mov, [.reg 0, .preDec 1], .long, 0x2106⟩ ⟨start, bus⟩) =
      .error (.error (.vm (.bus 0xfffffffc (.outside 0xfffffffc 1 4)))) := by decide +kernel
  have hfailed := hstart.execute ⟨.mov, [.reg 0, .preDec 1], .long, 0x2106⟩ bus
  cases hrun : Computer.execute ⟨.mov, [.reg 0, .preDec 1], .long, 0x2106⟩ (⟨start, bus⟩ : Computer LinearMemory) with
  | ok u t =>
    rw [hrun] at hout
    cases hout
  | error e t =>
    rw [hrun] at hout hfailed
    obtain rfl := Except.error.inj hout
    have hregs := (execute_memoryless _).1 _ _ _ hrun nofun
    exact ⟨t, rfl, hregs, (execute_memoryless _).2 false start t.session bus hstart hfailed hregs.symm⟩

end SuperH
