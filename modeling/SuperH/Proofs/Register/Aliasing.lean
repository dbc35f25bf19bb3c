import SuperH.Proofs.Register.Derive

/-!
# Registers that overlap

* `RegisterFile.Reachable` : the register files that writes lead to, starting from zeros;
* `Reachable.keeps` : what every write of a fitting value to a register keeps, they have; so bits are set in registers only
  (`Reachable.testBit_outside`);
* `testBit_content_put`, `exists_getBits_put` : every bit of every register after a write;
* `aliased_storage` : reading and writing by name, in every such register file.
-/

namespace SuperH

namespace RegisterFile

variable {regs : RegisterFile} {p : Profile} {r : Register} {name : String}

/-! ## Writes by name -/

/-- Nothing is written, or a value that fits to one of the registers. -/
def WritesOne (regs regs' : RegisterFile) : Prop :=
  regs' = regs ∨ ∃ r ∈ regs.profile.registers, ∃ v < 2 ^ r.size, regs' = regs.put r v

theorem setBits_eq_false {v : Bits} (h : ∀ r, regs.profile.get? name = some r → r.size ≠ v.width) :
    setBits name v regs = .ok false regs := by
  unfold setBits
  cases hget : regs.profile.get? name with
  | none => rfl
  | some r =>
    dsimp only
    rw [if_neg (h r hget)]

theorem setBits_writesOne (hp : regs.profile.Valid) (name : String) (v : Bits) :
    regs.WritesOne (final (setBits name v regs)) := by
  by_cases h : ∃ r, regs.profile.get? name = some r ∧ r.size = v.width
  · obtain ⟨r, hget, hsize⟩ := h
    rw [setBits_eq hp hget hsize.symm]
    exact .inr ⟨r, (Profile.mem_of_get? hget).1, v.toNat, hsize ▸ v.toNat_lt, rfl⟩
  · rw [setBits_eq_false fun r hget hsize => h ⟨r, hget, hsize⟩]
    exact .inl rfl

theorem set_writesOne (hp : regs.profile.Valid) (name : String) (n : Nat) : regs.WritesOne (final (set name n regs)) := by
  cases hget : regs.profile.get? name with
  | none =>
    have hset : set name n regs = .ok false regs := by
      refine (bind_of_ok rfl).trans ?_
      rw [hget]
      rfl
    exact .inl (congrArg final hset)
  | some r =>
    rw [set_eq hp hget]
    exact .inr ⟨r, (Profile.mem_of_get? hget).1, _, Nat.mod_lt _ (Nat.two_pow_pos _), rfl⟩

theorem setPc_writesOne (hp : regs.profile.Valid) (n : Nat) : regs.WritesOne (final (setPc n regs)) := by
  cases hpc : regs.profile.pc with
  | none =>
    have hset : setPc n regs = .ok false regs := by
      refine (bind_of_ok rfl).trans ?_
      rw [hpc]
      rfl
    exact .inl (congrArg final hset)
  | some name =>
    have hset : setPc n regs = set name n regs := by
      refine (bind_of_ok rfl).trans ?_
      rw [hpc]
    rw [hset]
    exact set_writesOne hp name n

/-! ## Reachable register files -/

/-- The register files over a profile that writes by name and to the program counter lead to. -/
inductive Reachable (p : Profile) : RegisterFile → Prop
  | start : Reachable p (.zeros p)
  | setBits {regs : RegisterFile} (name : String) (v : Bits) : Reachable p regs → Reachable p (final (setBits name v regs))
  | set {regs : RegisterFile} (name : String) (n : Nat) : Reachable p regs → Reachable p (final (set name n regs))
  | setPc {regs : RegisterFile} (n : Nat) : Reachable p regs → Reachable p (final (setPc n regs))

/-- What holds of zeros, and is kept by every write of a fitting value to a register of the profile. -/
theorem Reachable.keeps {P : RegisterFile → Prop} (h : Reachable p regs) (hp : p.Valid) (hzeros : P (.zeros p))
    (hput : ∀ regs, regs.profile = p → P regs → ∀ r ∈ p.registers, ∀ v < 2 ^ r.size, P (regs.put r v)) :
    regs.profile = p ∧ P regs := by
  have hstep {regs regs' : RegisterFile} (h : regs.profile = p ∧ P regs) (hwrite : regs.WritesOne regs') :
      regs'.profile = p ∧ P regs' := by
    obtain ⟨hprofile, hregs⟩ := h
    obtain rfl | ⟨r, hr, v, hv, rfl⟩ := hwrite
    · exact ⟨hprofile, hregs⟩
    · exact ⟨hprofile, hput regs hprofile hregs r (hprofile ▸ hr) v hv⟩
  -- a write needs a valid profile, so the invariant carries along which one it is
  induction h with
  | start => exact ⟨rfl, hzeros⟩
  | setBits name v _ ih => exact hstep ih (setBits_writesOne (ih.1.symm ▸ hp) name v)
  | set name n _ ih => exact hstep ih (set_writesOne (ih.1.symm ▸ hp) name n)
  | setPc n _ ih => exact hstep ih (setPc_writesOne (ih.1.symm ▸ hp) n)

theorem Reachable.profile (h : Reachable p regs) (hp : p.Valid) : regs.profile = p :=
  (h.keeps (P := fun _ => True) hp trivial fun _ _ _ _ _ _ _ => trivial).1

/-- A bit that belongs to no register is clear: an arena goes no further than the registers of its class. -/
theorem Reachable.testBit_outside (h : Reachable p regs) (hp : p.Valid) {cls : RegClass} {i : Nat}
    (hout : ∀ r ∈ p.registers, ¬ r.Holds cls i) : (regs.arena cls).testBit i = false := by
  refine (h.keeps (P := fun regs => (regs.arena cls).testBit i = false) hp ?_ fun regs _ hclear r hr v hv => ?_).2
  · rw [arena_zeros, Nat.zero_testBit]
  · rw [testBit_put_of_not_holds hv (hout r hr)]
    exact hclear

/-! ## Bits after a write -/

/-- A bit at a position of the written register is the one written there, and the others stay. -/
theorem testBit_content_put {s : Register} {v i : Nat} (hc : regs.Covers r) (hv : v < 2 ^ r.size) (hi : i < s.size) :
    (r.Holds s.cls (s.offset + i) → ((regs.put r v).content s).testBit i = v.testBit (s.offset + i - r.offset)) ∧
    (¬ r.Holds s.cls (s.offset + i) → ((regs.put r v).content s).testBit i = (regs.content s).testBit i) := by
  rw [testBit_content, testBit_content, decide_eq_true hi, Bool.true_and, Bool.true_and]
  exact ⟨testBit_put_of_holds hc hv, testBit_put_of_not_holds hv⟩

theorem exists_getBits_put (hp : regs.profile.Valid) (hr : r ∈ regs.profile.registers) {s : Register}
    (hs : s ∈ regs.profile.registers) {v : Nat} (hv : v < 2 ^ r.size) : ∃ old new,
      regs.getBits s.name = .ok (some old) ∧ (regs.put r v).getBits s.name = .ok (some new) ∧ ∀ i < s.size,
        (r.Holds s.cls (s.offset + i) → new.toNat.testBit i = v.testBit (s.offset + i - r.offset)) ∧
        (¬ r.Holds s.cls (s.offset + i) → new.toNat.testBit i = old.toNat.testBit i) := by
  have hp' : (regs.put r v).profile.Valid := hp
  obtain ⟨old, hold, holdNat⟩ := exists_getBits hp (hp.get?_of_mem hs)
  obtain ⟨new, hnew, hnewNat⟩ := exists_getBits hp' (hp'.get?_of_mem hs)
  refine ⟨old, new, hold, hnew, fun i hi => ?_⟩
  rw [holdNat, hnewNat]
  exact testBit_content_put (covers_of_mem hp hr) hv hi

theorem getBits_eq_none (h : name ∉ regs.profile.registers.map (·.name)) : regs.getBits name = .ok none := by
  refine getBits_eq_none_iff.2 (List.find?_eq_none.2 fun r hr hfound => h ?_)
  exact List.mem_map.2 ⟨r, hr, by simpa using hfound⟩

/-- Registers may overlap as they like, and have any size. Under the name of each there are as many bits as it has, under other
names there is nothing, and no bits are set but those of registers. A value of the size of a register is written to it, and
nothing is written otherwise; a bit of any register is then the one that was written at its position in the arena, if the written
register has that position, and the bit that it was if not. -/
theorem aliased_storage (hp : p.validate = .ok ()) (h : Reachable p regs) :
    (∀ name, name ∉ p.registers.map (·.name) → regs.getBits name = .ok none) ∧
    (∀ r ∈ p.registers, ∃ v, regs.getBits r.name = .ok (some v) ∧ v.width = r.size) ∧
    (∀ cls i, (∀ r ∈ p.registers, ¬ r.Holds cls i) → (regs.arena cls).testBit i = false) ∧
    ∀ (name : String) (v : Bits), ∃ written regs', setBits name v regs = .ok written regs' ∧
      (written = true ↔ ∃ r ∈ p.registers, r.name = name ∧ r.size = v.width) ∧
      (written = false → regs' = regs) ∧
      (written = true → ∀ r ∈ p.registers, r.name = name → ∀ s ∈ p.registers, ∃ old new,
        regs.getBits s.name = .ok (some old) ∧ regs'.getBits s.name = .ok (some new) ∧ ∀ i < s.size,
          (r.Holds s.cls (s.offset + i) → new.toNat.testBit i = v.toNat.testBit (s.offset + i - r.offset)) ∧
          (¬ r.Holds s.cls (s.offset + i) → new.toNat.testBit i = old.toNat.testBit i)) := by
  have hvalid := Profile.valid_of_validate hp
  have houtside (cls : RegClass) (i : Nat) (hout : ∀ r ∈ p.registers, ¬ r.Holds cls i) := h.testBit_outside hvalid hout
  obtain rfl := h.profile hvalid
  refine ⟨fun name => getBits_eq_none, fun r hr => ⟨_, getBits_eq hvalid (hvalid.get?_of_mem hr), rfl⟩, houtside,
    fun name v => ?_⟩
  by_cases hwritten : ∃ r ∈ regs.profile.registers, r.name = name ∧ r.size = v.width
  · obtain ⟨r, hr, rfl, hsize⟩ := hwritten
    refine ⟨true, regs.put r v.toNat, setBits_eq hvalid (hvalid.get?_of_mem hr) hsize.symm,
      ⟨fun _ => ⟨r, hr, rfl, hsize⟩, fun _ => rfl⟩, nofun, fun _ r' hr' hname s hs => ?_⟩
    obtain rfl : r' = r := List.inj_on_of_nodup_map hvalid.nodup hr' hr hname
    exact exists_getBits_put hvalid hr hs (hsize ▸ v.toNat_lt)
  · refine ⟨false, regs, setBits_eq_false fun r hget hsize => ?_, ⟨nofun, fun hr => absurd hr hwritten⟩, fun _ => rfl, nofun⟩
    obtain ⟨hr, hname⟩ := Profile.mem_of_get? hget
    exact hwritten ⟨r, hr, hname, hsize⟩

/-- A register of 72 bits over the end of one of 128 bits, and a flag at the same position in another arena. -/
theorem aliased_storage_across :
    let p : Profile := ⟨[⟨"wide", 0, 128, .gpr⟩, ⟨"late", 60, 72, .gpr⟩, ⟨"f", 64, 1, .flg⟩], none⟩
    let regs := final (RegisterFile.set "wide" 0xfedcba9876543210 (.zeros p))
    let v := Bits.ofNat 72 0xff0 (by decide)
    p.validate = .ok () ∧ regs.Reachable p ∧ ∃ regs' wide wide' f f', setBits "late" v regs = .ok true regs' ∧
      regs.getBits "wide" = .ok (some wide) ∧ regs'.getBits "wide" = .ok (some wide') ∧
      wide'.toNat.testBit 64 = true ∧ wide'.toNat.testBit 59 = wide.toNat.testBit 59 ∧
      regs.getBits "f" = .ok (some f) ∧ regs'.getBits "f" = .ok (some f') ∧ f'.toNat.testBit 0 = f.toNat.testBit 0 := by
  intro p regs v
  have hp : p.validate = .ok () := by decide
  have hregs : regs.Reachable p := .set "wide" 0xfedcba9876543210 .start
  obtain ⟨-, -, -, hwrite⟩ := aliased_storage hp hregs
  obtain ⟨written, regs', hset, hiff, -, hbits⟩ := hwrite "late" v
  obtain rfl : written = true := hiff.2 ⟨⟨"late", 60, 72, .gpr⟩, by decide, rfl, rfl⟩
  have hlate := hbits rfl ⟨"late", 60, 72, .gpr⟩ (by decide) rfl
  obtain ⟨wide, wide', hold, hnew, hwide⟩ := hlate ⟨"wide", 0, 128, .gpr⟩ (by decide)
  obtain ⟨f, f', hf, hf', hflag⟩ := hlate ⟨"f", 64, 1, .flg⟩ (by decide)
  have hv : v.toNat.testBit 4 = true := by decide
  have h64 := (hwide 64 (by decide)).1 ⟨rfl, by decide, by decide⟩
  have h59 := (hwide 59 (by decide)).2 fun h => absurd h.2.1 (by decide)
  exact ⟨hp, hregs, regs', wide, wide', f, f', hset, hold, hnew, h64.trans hv, h59, hf, hf',
    (hflag 0 (by decide)).2 fun h => nomatch h.1⟩

end RegisterFile
end SuperH
