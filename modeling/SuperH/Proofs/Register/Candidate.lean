import SuperH.Proofs.Register.Walk

/-!
# Candidates of a derived binding

* `Register.Contains`, `Profile.FlagFree` : a register around another one, and a register around no one-bit register;
* `Profile.Candidate` : the registers that the walk chooses from, which are those that reach it
  (`candidate_iff`, `mem_wide_candidate`);
* `bound_iff_mem_wide`, `exists_bound_flag` : which registers are bound.
-/

namespace SuperH

/-- The second register lies in the first one. -/
def Register.Contains (o r : Register) : Prop := o.cls = r.cls ∧ o.offset ≤ r.offset ∧ r.limit ≤ o.limit

instance (o r : Register) : Decidable (o.Contains r) :=
  inferInstanceAs (Decidable (o.cls = r.cls ∧ o.offset ≤ r.offset ∧ r.limit ≤ o.limit))

/-- A register has a bit in common with each that it lies in. -/
theorem Register.Contains.not_apart {o r : Register} (h : o.Contains r) (hr : r.Fits) : ¬ r.Apart o := by
  obtain ⟨hcls, hoffset, hlimit⟩ := h
  have hlt := hr.offset_lt_limit
  exact Register.not_apart hcls.symm (by omega) (by omega)

namespace Profile

variable (p : Profile)

/-- No one-bit register lies in the register. -/
def FlagFree (r : Register) : Prop := ∀ f ∈ p.registers, f.size = 1 → ¬ r.Contains f

instance (r : Register) : Decidable (p.FlagFree r) :=
  inferInstanceAs (Decidable (∀ f ∈ p.registers, f.size = 1 → ¬ r.Contains f))

/-- A register of the class that could be bound, were it not for those beside it: it is no flag, not the program counter,
without a flag in it, and not a part of a larger register without a flag. -/
structure Candidate (cls : RegClass) (r : Register) : Prop where
  mem : r ∈ p.registers
  cls : r.cls = cls
  wide : r.size ≠ 1
  notPc : p.pcRegister? ≠ some r
  flagFree : p.FlagFree r
  outermost : ∀ o ∈ p.registers, r.size < o.size → p.FlagFree o → ¬ o.Contains r

variable {p} {r o : Register} {cls : RegClass}

theorem Valid.pc_eq_iff (hp : p.Valid) (hr : r ∈ p.registers) : p.pcRegister? = some r ↔ p.pc = some r.name := by
  constructor
  · intro h
    obtain ⟨name, hpc, hget⟩ := Option.bind_eq_some_iff.1 h
    rw [hpc, (mem_of_get? hget).2]
  · intro h
    rw [pcRegister?, h]
    exact hp.get?_of_mem hr

end Profile

namespace Binding

variable {rs : List Register} {r f o : Register} {p : Profile} {cls : RegClass}

/-! ## Flags -/

/-- A flag is bound at the position of every one-bit register. -/
theorem exists_flag_at (hr : r ∈ rs) (hsize : r.size = 1) : ∃ f ∈ flags rs, f.offset = r.offset := by
  have hsome : (rs.find? fun q => q.size == 1 && q.offset == r.offset).isSome := by
    rw [List.find?_isSome]
    exact ⟨r, hr, by simp [hsize]⟩
  obtain ⟨f, hf⟩ := Option.isSome_iff_exists.1 hsome
  have hmatch : f.size = 1 ∧ f.offset = r.offset := by simpa using List.find?_some hf
  refine ⟨f, mem_flags_iff.2 ?_, hmatch.2⟩
  rw [hmatch.2]
  exact hf

/-- A register without a bound flag has no one-bit register in it at all. -/
theorem mem_flagless_iff_forall :
    r ∈ flagless rs ↔ r ∈ rs ∧ r.size ≠ 1 ∧ ∀ f ∈ rs, f.size = 1 → covers r f = false := by
  rw [mem_flagless_iff]
  refine and_congr_right fun _ => and_congr_right fun _ => ⟨fun h f hf hsize => ?_, fun h f hf => ?_⟩
  · obtain ⟨g, hg, hoffset⟩ := exists_flag_at hf hsize
    have hcover := h g hg
    rw [covers, hoffset] at hcover
    exact hcover
  · exact h f ((flags_sublist rs).subset hf) (size_of_mem_flags hf)

theorem covers_eq_false_iff (hf : f.Fits) (hsize : f.size = 1) (hcls : r.cls = f.cls) :
    covers r f = false ↔ ¬ r.Contains f := by
  have hlimit := hf.limit_eq
  rw [← Bool.not_eq_true]
  refine not_congr ?_
  unfold covers Register.Contains
  simp only [Bool.and_eq_true, decide_eq_true_eq, hcls, true_and]
  omega

/-! ## Candidates -/

theorem mem_flagless_ofClass (hp : p.Valid) :
    r ∈ flagless (p.ofClass cls) ↔ r ∈ p.registers ∧ r.cls = cls ∧ r.size ≠ 1 ∧ p.FlagFree r := by
  rw [mem_flagless_iff_forall, Profile.mem_ofClass, and_assoc]
  refine and_congr_right fun _ => and_congr_right fun hcls => and_congr_right fun _ => ⟨fun h f hf hsize hin => ?_, ?_⟩
  · have hfcls : f.cls = cls := hin.1.symm.trans hcls
    exact (covers_eq_false_iff (hp.fits f hf) hsize hin.1).1 (h f (Profile.mem_ofClass.2 ⟨hf, hfcls⟩) hsize) hin
  · intro h f hf hsize
    obtain ⟨hf, hfcls⟩ := Profile.mem_ofClass.1 hf
    exact (covers_eq_false_iff (hp.fits f hf) hsize (hcls.trans hfcls.symm)).2 (h f hf hsize)

/-- The candidates are what reaches the walk, less the program counter. -/
theorem candidate_iff (hp : p.Valid) :
    p.Candidate cls r ↔ r ∈ outermost (flagless (p.ofClass cls)) ∧ p.pc ≠ some r.name := by
  rw [mem_outermost_iff, mem_flagless_ofClass hp]
  constructor
  · rintro ⟨hmem, hcls, hwide, hpc, hfree, houter⟩
    refine ⟨⟨⟨hmem, hcls, hwide, hfree⟩, fun o ho => ?_⟩, fun h => hpc ((hp.pc_eq_iff hmem).2 h)⟩
    obtain ⟨hmem', hcls', -, hfree'⟩ := (mem_flagless_ofClass hp).1 ho
    rw [Bool.eq_false_iff]
    intro hinside
    obtain ⟨hsize, hrange⟩ := inside_iff.1 hinside
    exact houter o hmem' hsize hfree' ⟨hcls'.trans hcls.symm, hrange⟩
  · rintro ⟨⟨⟨hmem, hcls, hwide, hfree⟩, houter⟩, hpc⟩
    refine ⟨hmem, hcls, hwide, fun h => hpc ((hp.pc_eq_iff hmem).1 h), hfree, fun o ho hsize hfree' hin => ?_⟩
    have hpos := (hp.fits r hmem).pos
    have ho' : o ∈ flagless (p.ofClass cls) :=
      (mem_flagless_ofClass hp).2 ⟨ho, hin.1.trans hcls, by omega, hfree'⟩
    exact absurd (inside_iff.2 ⟨hsize, hin.2⟩) (by simp [houter o ho'])

theorem mem_wide_candidate (hp : p.Valid) (h : r ∈ wide p.pc (p.ofClass cls)) : p.Candidate cls r :=
  (candidate_iff hp).2 ⟨mem_sortByOffset.1 ((walk_sublist ..).subset h), pc_ne_of_mem_walk h⟩

/-! ## Bound registers -/

/-- A register that is no flag is bound exactly if the walk of its class keeps it. -/
theorem bound_iff_mem_wide (hp : p.Valid) (hr : r ∈ p.registers) (hsize : r.size ≠ 1) :
    r.bound ∈ (derive p).items ↔ r ∈ wide p.pc (p.ofClass r.cls) := by
  rw [bound_mem_derive_iff hp hr, mem_registers_iff, deriveClass_eq, List.mem_append]
  exact or_iff_right fun h => hsize (size_of_mem_flags h)

/-- Every position of a one-bit register is bound. -/
theorem exists_bound_flag (hp : p.Valid) (hr : r ∈ p.registers) (hsize : r.size = 1) :
    ∃ f ∈ p.registers, f.bound ∈ (derive p).items ∧ f.range = r.range := by
  obtain ⟨f, hf, hoffset⟩ := exists_flag_at (Profile.mem_ofClass.2 ⟨hr, rfl⟩) hsize
  obtain ⟨hmem, hcls⟩ := Profile.mem_ofClass.1 ((flags_sublist _).subset hf)
  have hbound : f.bound ∈ (derive p).items := by
    rw [bound_mem_derive_iff hp hmem, mem_registers_iff, mem_deriveClass_iff_of_size (size_of_mem_flags hf), hcls]
    exact hf
  refine ⟨f, hmem, hbound, ?_⟩
  rw [Register.range, Register.range, hcls, hoffset, hsize, size_of_mem_flags hf]

end Binding
end SuperH
