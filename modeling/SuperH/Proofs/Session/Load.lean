import SuperH.Proofs.Lift.Load
import SuperH.Proofs.Session.Completes
import SuperH.Proofs.Vm.Write

/-!
# Loading a register from memory

* `State.load_spec` : what a load makes of a state;
* `move_load` : MOV.B, MOV.W and MOV.L from every operand in memory to a general register, in every session of the machine.
-/

namespace SuperH

open Cpu

namespace Cpu.State

variable (st : State) {n : Fin 16} {v : BitVec 32} {stepped : Option (Fin 16)} {bytes : Nat}

theorem changesOnly_load : st.ChangesOnly (st.load n v stepped bytes) (st.loadNames n stepped) := by
  cases stepped with
  | none => exact ChangesOnly.refl.setReg (List.mem_cons_self ..) v
  | some m =>
    exact (ChangesOnly.refl.setReg (List.mem_cons_self ..) v).setReg (List.mem_cons_of_mem _ (List.mem_cons_self ..)) _

/-- The loaded register has the value, and another one is stepped by the size of the access. -/
theorem load_spec (hne : ∀ m, stepped = some m → m ≠ n) : (st.load n v stepped bytes).reg n = v ∧
    ∀ m, stepped = some m → (st.load n v stepped bytes).reg m = st.reg m + BitVec.ofNat 32 bytes := by
  cases stepped with
  | none =>
    refine ⟨?_, nofun⟩
    rw [load, reg_setReg, if_pos rfl]
  | some m =>
    have hmn := hne m rfl
    refine ⟨?_, ?_⟩
    · rw [load, advance, reg_setReg, if_neg hmn.symm, reg_setReg, if_pos rfl]
    · intro k hk
      cases hk
      rw [load, advance, reg_setReg, if_pos rfl, reg_setReg, if_neg hmn]

end Cpu.State

variable {bigEndian : Bool} {s : Session}

/-- The address is that of the source in the state before the call, and the bytes are those upwards from it, which wraps around.
If they are all mapped, the call answers, Rn takes them in the byte order of the session and with their sign, a source `@Rm+`
with another register than Rn steps it, and nothing else changes but the program counter. If they are not, the call fails at the
first one that is not, and changes neither the registers nor the memory. -/
theorem move_load (hs : s.Reachable bigEndian) {size : AccessSize} {bytes : Nat} (hsize : size.bytes? = some bytes)
    {source : Operand} (hsource : source.IsSource) (n : Fin 16) (opcode : Nat) {σ : Type} [Bus σ] (bus : σ) :
    let st := s.regs.state
    let insn : Insn := ⟨.mov, [source, .reg n], size, opcode⟩
    ∃ pc addr, s.pc = .ok pc ∧ st.address pc size source = some addr ∧
      ((∀ i < bytes, Bus.Mapped bus (addr + BitVec.ofNat 32 i)) →
        s.Completes insn bus bus (st.loadNames n (source.stepped? n)) fun st' =>
          st'.reg n = (Bus.element bus bigEndian bytes addr).signExtend 32 ∧
          ∀ m, source.stepped? n = some m → st'.reg m = st.reg m + BitVec.ofNat 32 bytes) ∧
      (Bus.Steady bus → ¬ (∀ i < bytes, Bus.Mapped bus (addr + BitVec.ofNat 32 i)) →
        ∃ k < bytes, (∀ i < k, Bus.Mapped bus (addr + BitVec.ofNat 32 i)) ∧ ∃ cause,
          Bus.read8 (addr + BitVec.ofNat 32 k) bus = .error cause bus ∧
          s.Stops insn bus (.bus (addr + BitVec.ofNat 32 k) cause)) := by
  intro st insn
  have hlive := hs.live
  obtain ⟨addr, haddr⟩ := hsource.exists_address hsize st (BitVec.ofNat 32 (s.regs.content pcReg))
  generalize hpc : BitVec.ofNat 32 (s.regs.content pcReg) = pc at haddr
  have hpc : s.pc = .ok pc := hpc ▸ hlive.pc_eq
  have hback : BitVec.ofNat 32 pc.toNat = pc := by rw [BitVec.ofNat_toNat, BitVec.setWidth_eq]
  obtain ⟨e, heffective, heval⟩ := exists_address pc.toNat hsource.register_lt (hback.symm ▸ haddr)
  have he : Evals ⟨st, []⟩ e (.word addr) := heval _ addr (hback.symm ▸ haddr)
  obtain ⟨effect, hlift, hexec⟩ := exists_lift_load hsource hsize heffective n opcode (st.flag .md)
  have hshows := shows_loadedVm bigEndian hlive.profile
  refine ⟨pc, addr, hpc, haddr, fun hmapped => ?_, fun hsteady hmapped => ?_⟩
  · obtain ⟨y, hruns, hy⟩ := runs_load hsize he n (source.stepped? n) hmapped
    obtain ⟨vm, hall, hvm⟩ := hruns.exec attached_loadedVm.toSetUp hshows
    rw [← hexec] at hall
    refine completes_of_exec hlive rfl hpc hlift hall hvm ?_ ?_
    · rw [hy]
      exact st.changesOnly_load
    · rw [hy]
      exact st.load_spec fun m hm => Operand.ne_of_stepped? hsource hm
  · obtain ⟨k, hk, hbefore, cause, hcause⟩ := hsteady.exists_first addr hmapped
    have hfail := exec_load_error attached_loadedVm.toSetUp hshows he hsize n (source.stepped? n) hk hbefore hcause
    rw [← hexec] at hfail
    exact ⟨k, hk, hbefore, cause, hcause, stops_of_exec hlive hpc hlift hfail⟩

/-- With bank 1 in use a word is loaded with its sign, in the big-endian order, and R1 is stepped; if the second byte is
missing, the load fails there. -/
theorem move_load_word :
    let regs := final (RegisterFile.set "sr" 0x60000000 (RegisterFile.zeros Cpu.profile))
    let s : Session := ⟨Cpu.initialVm true, final (RegisterFile.set "r1b" 2 regs), lift⟩
    let mem : LinearMemory := { bytes := #[0, 0, 0xff, 0xfe] }
    let short : LinearMemory := { bytes := #[0, 0, 0xff] }
    let insn : Insn := ⟨.mov, [.postInc 1, .reg 2], .word, 0x6215⟩
    s.Reachable true ∧ AccessSize.word.bytes? = some 2 ∧ (Operand.postInc 1).IsSource ∧
      (s.Completes insn mem mem ["r2b", "r1b"] fun st' => st'.reg 2 = 0xfffffffe ∧ st'.reg 1 = 4) ∧
      ∃ cause, s.Stops insn short (.bus 3 cause) := by
  intro regs s mem short insn
  have hs : s.Reachable true := (Session.Reachable.start (Session.sh4_eq true)).write (by decide +kernel)
  have hnames : s.regs.state.loadNames 2 (some 1) = ["r2b", "r1b"] := by decide +kernel
  have hr1 : s.regs.state.reg 1 = 2 := by decide +kernel
  have haddress (pc : Address) : s.regs.state.address pc .word (.postInc 1) = some 2 :=
    congrArg some ((State.named_general _ 1).trans hr1)
  have hv : Bus.element mem true 2 2 = 0xfffe := by decide +kernel
  -- with the registers in sight the call would be evaluated
  clear_value s
  have hsize : AccessSize.word.bytes? = some 2 := rfl
  have hsource : (Operand.postInc 1).IsSource := .postInc 1
  have hstepped : (Operand.postInc 1).stepped? 2 = some 1 := rfl
  refine ⟨hs, hsize, hsource, ?_, ?_⟩
  · obtain ⟨pc, addr, -, haddr, hload, -⟩ := move_load hs hsize hsource 2 0x6215 mem
    obtain rfl : 2 = addr := Option.some.inj ((haddress pc).symm.trans haddr)
    have hstep : s.regs.state.reg 1 + 2#32 = 4 := by
      rw [hr1]
      rfl
    rw [hstepped, hnames, hv] at hload
    refine (hload fun i hi => LinearMemory.mapped_of_lt rfl ?_).mono fun st' h => ⟨h.1, (h.2 1 rfl).trans hstep⟩
    show (2 + BitVec.ofNat 32 i : BitVec 32).toNat < 4
    bv_omega
  · obtain ⟨pc, addr, -, haddr, -, hfail⟩ := move_load hs hsize hsource 2 0x6215 short
    obtain rfl : 2 = addr := Option.some.inj ((haddress pc).symm.trans haddr)
    have hmissing : ¬ Bus.Mapped short 3 := by
      rw [LinearMemory.mapped_iff]
      rintro ⟨off, hoff⟩
      cases hoff
    have hlast : (2 + BitVec.ofNat 32 1 : Address) = 3 := rfl
    obtain ⟨k, hk, hbefore, cause, hcause, hstops⟩ := hfail short.steady fun hall => hmissing (hlast ▸ hall 1 (by decide))
    have hfirst : Bus.Mapped short 2 := LinearMemory.mapped_of_lt rfl (by decide)
    obtain rfl : k = 1 := by
      have hne : k ≠ 0 := by
        rintro rfl
        obtain ⟨b, hb⟩ := hfirst
        cases hb.symm.trans hcause
      omega
    exact ⟨cause, hstops⟩

end SuperH
