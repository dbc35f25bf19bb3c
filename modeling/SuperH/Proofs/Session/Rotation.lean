import SuperH.Proofs.Lift.Rotation
import SuperH.Proofs.Session.Completes

/-!
# Rotations over and over again

* `Transforms.replicate_through`, `Transforms.replicate_alone` : an instruction any number of times, that changes T and a
  register as one word, or the register alone and T by the result;
* `repeated_rotcl`, `repeated_rotcr`, `repeated_rotl`, `repeated_rotr` : rotations by one place as one rotation by as many;
* `repeated_rotcl_rotcr` : ROTCR undoes ROTCL;
* `rotations` : runs of ROTCL, ROTCR, ROTL and ROTR, by the values before the first.
-/

namespace SuperH

open Cpu

variable (n : Fin 16) (k : Nat)

namespace Cpu.Transforms

section

variable {p : Insn} {f : State → State}

/-- An instruction that changes T and the register as one word. -/
theorem replicate_through (h : Transforms [p] f) {g : BitVec 33 → BitVec 33}
    (hf : ∀ st, f st = st.setThrough n (g (st.through n))) :
    Transforms (List.replicate k p) fun st => st.setThrough n (g^[k] (st.through n)) := by
  have hk : f^[k] = fun st => st.setThrough n (g^[k] (st.through n)) := funext fun st => st.iterate_through n hf k
  exact hk ▸ h.replicate k

/-- An instruction that changes the register alone, and sets T by the result. -/
theorem replicate_alone (h : Transforms [p] f) {g : BitVec 32 → BitVec 32} {b : BitVec 32 → Bool}
    (hf : ∀ st, f st = st.setResult n (g (st.reg n)) (b (g (st.reg n)))) (hk : 0 < k) :
    Transforms (List.replicate k p) fun st => st.setResult n (g^[k] (st.reg n)) (b (g^[k] (st.reg n))) := by
  obtain ⟨k, rfl⟩ := Nat.exists_eq_succ_of_ne_zero (Nat.ne_of_gt hk)
  have hk : f^[k + 1] = fun st => st.setResult n (g^[k + 1] (st.reg n)) (b (g^[k + 1] (st.reg n))) :=
    funext fun st => st.iterate_alone n hf k
  exact hk ▸ h.replicate (k + 1)

end

theorem repeated_rotcl :
    Transforms (List.replicate k (.onRegs .rotcl [n])) fun st => st.setThrough n ((st.through n).rotateLeft k) := by
  have h := (rotcl n).replicate_through n k (g := (·.rotateLeft 1)) (·.rotateThrough_eq n)
  simpa only [iterate_rotateLeft] using h

theorem repeated_rotcr :
    Transforms (List.replicate k (.onRegs .rotcr [n])) fun st => st.setThrough n ((st.through n).rotateRight k) := by
  have h := (rotcr n).replicate_through n k (g := (·.rotateRight 1)) (·.rotateDownThrough_eq n)
  simpa only [iterate_rotateRight] using h

theorem repeated_rotcl_rotcr :
    Transforms (List.replicate k (.onRegs .rotcl [n]) ++ List.replicate k (.onRegs .rotcr [n])) id := by
  have hback : (fun st : State => st.setThrough n ((st.through n).rotateRight k)) ∘
      (fun st => st.setThrough n ((st.through n).rotateLeft k)) = id := by
    funext st
    rw [Function.comp_apply, State.through_setThrough, State.setThrough_setThrough, rotateRight_rotateLeft,
      State.setThrough_through, id]
  exact hback ▸ (repeated_rotcl n k).append (repeated_rotcr n k)

/-- T has the bit that went around last. -/
theorem repeated_rotl (hk : 0 < k) : Transforms (List.replicate k (.onRegs .rotl [n])) fun st =>
    st.setResult n ((st.reg n).rotateLeft k) (((st.reg n).rotateLeft k).getLsbD 0) := by
  have h := (rotl n).replicate_alone n k (g := (·.rotateLeft 1)) (b := (·.getLsbD 0)) (·.rotateUp_eq n) hk
  simpa only [iterate_rotateLeft] using h

theorem repeated_rotr (hk : 0 < k) : Transforms (List.replicate k (.onRegs .rotr [n])) fun st =>
    st.setResult n ((st.reg n).rotateRight k) ((st.reg n).rotateRight k).msb := by
  have h := (rotr n).replicate_alone n k (g := (·.rotateRight 1)) (b := (·.msb)) (·.rotateDown_eq n) hk
  simpa only [iterate_rotateRight] using h

end Cpu.Transforms

variable {bigEndian : Bool} {s : Session}

/-- Whatever the state is, and on every memory, the runs answer and change only Rn in the bank in use, T and the program
counter. ROTCL and ROTCR rotate the 33 bits of T and Rn, so that as many of the one as of the other bring both back. ROTL and
ROTR rotate Rn alone, and T has the bit that went around last. -/
theorem rotations (hs : s.Reachable bigEndian) {σ : Type} [Bus σ] (bus : σ) :
    let st := s.regs.state
    let times (mnemonic : Mnemonic) : List Insn := List.replicate k (.onRegs mnemonic [n])
    let completes (program : List Insn) (changed : List String) (post : State → Prop) :=
      ∀ insns, insns.map Insn.plain = program → s.CompletesAll insns bus bus changed post
    completes (times .rotcl) (st.resultNames n) (fun st' => st'.through n = (st.through n).rotateLeft (k % 33)) ∧
    completes (times .rotcr) (st.resultNames n) (fun st' => st'.through n = (st.through n).rotateRight (k % 33)) ∧
    completes (times .rotcl ++ times .rotcr) [] (fun st' => st' = st) ∧
    (0 < k →
      completes (times .rotl) (st.resultNames n) (fun st' =>
        st'.reg n = (st.reg n).rotateLeft (k % 32) ∧ st'.flag .t = (st'.reg n).getLsbD 0) ∧
      completes (times .rotr) (st.resultNames n) (fun st' =>
        st'.reg n = (st.reg n).rotateRight (k % 32) ∧ st'.flag .t = (st'.reg n).msb)) := by
  intro st times completes
  have hlive := hs.live
  have hrotcl : ∀ p ∈ times .rotcl, p.Forward := fun _ => Insn.Forward.of_mem_replicate (.onRegs (by decide) rfl rfl)
  have hrotcr : ∀ p ∈ times .rotcr, p.Forward := fun _ => Insn.Forward.of_mem_replicate (.onRegs (by decide) rfl rfl)
  refine ⟨?rotcl, ?rotcr, ?back, fun hk => ⟨?rotl, ?rotr⟩⟩
  case rotcl =>
    intro insns hplain
    refine (Transforms.repeated_rotcl n k).completesAll hrotcl hplain hlive (st.changesOnly_setResult ..) ?_ bus
    rw [State.through_setThrough, BitVec.rotateLeft_mod_eq_rotateLeft]
  case rotcr =>
    intro insns hplain
    refine (Transforms.repeated_rotcr n k).completesAll hrotcr hplain hlive (st.changesOnly_setResult ..) ?_ bus
    rw [State.through_setThrough, BitVec.rotateRight_mod_eq_rotateRight]
  case back =>
    intro insns hplain
    have hboth : ∀ p ∈ times .rotcl ++ times .rotcr, p.Forward := fun p hp => (List.mem_append.1 hp).elim (hrotcl p) (hrotcr p)
    refine (Transforms.repeated_rotcl_rotcr n k).completesAll hboth hplain hlive .refl ?_ bus
    rfl
  case rotl =>
    intro insns hplain
    have hrotl : ∀ p ∈ times .rotl, p.Forward := fun _ => Insn.Forward.of_mem_replicate (.onRegs (by decide) rfl rfl)
    refine (Transforms.repeated_rotl n k hk).completesAll hrotl hplain hlive (st.changesOnly_setResult ..) ?_ bus
    rw [State.reg_setResult, State.flag_setResult, BitVec.rotateLeft_mod_eq_rotateLeft]
    exact ⟨rfl, rfl⟩
  case rotr =>
    intro insns hplain
    have hrotr : ∀ p ∈ times .rotr, p.Forward := fun _ => Insn.Forward.of_mem_replicate (.onRegs (by decide) rfl rfl)
    refine (Transforms.repeated_rotr n k hk).completesAll hrotr hplain hlive (st.changesOnly_setResult ..) ?_ bus
    rw [State.reg_setResult, State.flag_setResult, BitVec.rotateRight_mod_eq_rotateRight]
    exact ⟨rfl, rfl⟩

/-- Two places move the highest bit through T to the lowest place, and around T to the next one, with bank 1 in use. -/
theorem rotated_twice :
    let regs := final (RegisterFile.set "sr" 0x60000000 (RegisterFile.zeros Cpu.profile))
    let s : Session := ⟨Cpu.initialVm true, final (RegisterFile.set "r2b" 0x80000000 regs), lift⟩
    let mem := LinearMemory.zeros 0
    let twice (mnemonic : Mnemonic) : List Insn := [⟨mnemonic, [.reg 2], .long, 0⟩, ⟨mnemonic, [.reg 2], .unsized, 0⟩]
    let completes (mnemonic : Mnemonic) (post : State → Prop) :=
      s.CompletesAll (twice mnemonic) mem mem ["r2b", Flag.t.var] post
    s.Reachable true ∧ completes .rotcl (fun st' => st'.through 2 = 1) ∧
      completes .rotl fun st' => st'.reg 2 = 2 ∧ st'.flag .t = false := by
  intro regs s mem twice completes
  have hs : s.Reachable true := (Session.Reachable.start (Session.sh4_eq true)).write (by decide +kernel)
  have hnames : s.regs.state.resultNames 2 = ["r2b", Flag.t.var] := by decide +kernel
  have hthrough : s.regs.state.through 2 = 0x80000000 := by decide +kernel
  have hr2 : s.regs.state.reg 2 = 0x80000000 := by decide +kernel
  -- with the registers in sight the calls would be evaluated
  clear_value s
  obtain ⟨hrotcl, -, -, halone⟩ := rotations 2 2 hs mem
  obtain ⟨hrotl, -⟩ := halone (by decide)
  rw [hnames, hthrough] at hrotcl
  rw [hnames, hr2] at hrotl
  refine ⟨hs, hrotcl (twice .rotcl) rfl, (hrotl (twice .rotl) rfl).mono fun st' hst => ?_⟩
  obtain ⟨hreg, hflag⟩ := hst
  rw [hreg] at hflag
  exact ⟨hreg, hflag⟩

end SuperH
