import SuperH.Cpu.Registers
import SuperH.Proofs.Register.Candidate

/-!
# How good the choice of registers is

The walk keeps as many registers as can be kept at once. It does not always keep enough of them to touch every register: one
is dropped for a larger one around it, even if the larger one is dropped in turn.

* `Profile.chosen`, `derive_optimal` : of the candidates of a class, as many are bound as can be apart from each other;
* `Profile.LeftOut`, `derive_maximal` : how a register can be left out that would have had room, and that no register of a
  profile of nested registers is; `register_left_out` is one.
-/

namespace SuperH

namespace Profile

variable (p : Profile)

/-- The registers of a class that are bound, less the flags. -/
def chosen (cls : RegClass) : List Register :=
  p.registers.filter fun r => r.cls == cls && r.size != 1 && decide (r.bound ∈ (Binding.derive p).items)

/-- A register that has room beside the program counter and everything that is bound, and is not bound. -/
structure LeftOut (r : Register) : Prop where
  mem : r ∈ p.registers
  unbound : r.bound ∉ (Binding.derive p).items
  notPc : p.pcRegister? ≠ some r
  apartPc : ∀ pc ∈ p.pcRegister?, r.Apart pc
  apart : ∀ s ∈ p.registers, s.bound ∈ (Binding.derive p).items → r.Apart s

/-- Of registers with a bit in common, one lies in the other. -/
def Nested : Prop := ∀ r ∈ p.registers, ∀ s ∈ p.registers, ¬ r.Apart s → r.Contains s ∨ s.Contains r

end Profile

instance (r s : Register) : Decidable (r.Apart s) := inferInstanceAs (Decidable (r.overlaps s = false))

instance (p : Profile) : Decidable p.Nested :=
  inferInstanceAs (Decidable (∀ r ∈ p.registers, ∀ s ∈ p.registers, ¬ r.Apart s → r.Contains s ∨ s.Contains r))

namespace Binding

variable {p : Profile} {cls : RegClass} {r : Register}

/-! ## As many as possible -/

theorem mem_chosen_iff (hp : p.Valid) : r ∈ p.chosen cls ↔ r ∈ wide p.pc (p.ofClass cls) := by
  constructor
  · intro h
    obtain ⟨hmem, ⟨hcls, hsize⟩, hbound⟩ : r ∈ p.registers ∧ (r.cls = cls ∧ r.size ≠ 1) ∧ r.bound ∈ (derive p).items := by
      simpa [Profile.chosen] using h
    rw [← hcls]
    exact (bound_iff_mem_wide hp hmem hsize).1 hbound
  · intro h
    have hr := mem_wide_candidate hp h
    have hbound : r.bound ∈ (derive p).items := (bound_iff_mem_wide hp hr.mem hr.wide).2 (hr.cls.symm ▸ h)
    simp [Profile.chosen, hr.mem, hr.cls, hr.wide, hbound]

theorem wide_apart (pc : Option String) (rs : List Register) : (wide pc rs).Pairwise Register.Apart :=
  (wide_pairwise pc rs).imp Register.apart_of_limit_le

theorem nodup_of_apart {rs : List Register} (hfits : ∀ r ∈ rs, r.Fits) (h : rs.Pairwise Register.Apart) : rs.Nodup := by
  refine h.imp_of_mem ?_
  rintro r _ hr - hapart rfl
  exact (hfits r hr).not_apart_self hapart

/-- The chosen registers, by offset. -/
theorem chosen_perm (hp : p.Valid) (cls : RegClass) : (p.chosen cls).Perm (wide p.pc (p.ofClass cls)) := by
  have hregisters : p.registers.Nodup := List.Nodup.of_map _ hp.nodup
  have hwide : (wide p.pc (p.ofClass cls)).Nodup :=
    nodup_of_apart (fun r hr => hp.fits r (mem_wide_candidate hp hr).mem) (wide_apart ..)
  exact (List.perm_ext_iff_of_nodup (hregisters.filter _) hwide).2 fun r => mem_chosen_iff hp

/-- The registers of a class that are bound, less the flags, are candidates, are apart from each other, and are at least as
many as any candidates that are apart from each other. -/
theorem derive_optimal (h : p.validate = .ok ()) (cls : RegClass) :
    (∀ r ∈ p.chosen cls, p.Candidate cls r) ∧ (p.chosen cls).Pairwise Register.Apart ∧
      ∀ rs : List Register, (∀ r ∈ rs, p.Candidate cls r) → rs.Pairwise Register.Apart →
        rs.length ≤ (p.chosen cls).length := by
  have hp := Profile.valid_of_validate h
  refine ⟨fun r hr => mem_wide_candidate hp ((mem_chosen_iff hp).1 hr), ?_, fun rs hrs hapart => ?_⟩
  · exact (chosen_perm hp cls).symm.pairwise (wide_apart ..) Register.Apart.symm
  · have hmem : ∀ r ∈ sortByOffset (outermost (flagless (p.ofClass cls))), r ∈ p.registers ∧ r.cls = cls := by
      intro r hr
      have hflagless := (mem_outermost_iff.1 (mem_sortByOffset.1 hr)).1
      exact Profile.mem_ofClass.1 (mem_flagless_iff.1 hflagless).1
    rw [(chosen_perm hp cls).length_eq]
    refine length_le_walk (sortByOffset_pairwise _) (unnested_sorted _) (fun r hr => hp.fits r (hmem r hr).1)
      (fun r hr => (hmem r hr).2) (fun r hr => ?_) hapart
    obtain ⟨houter, hpc⟩ := (candidate_iff hp).1 (hrs r hr)
    exact ⟨mem_sortByOffset.2 houter, hpc, nofun⟩

/-- Of four registers in a row, each of which overlaps the next, two are bound, and of two with one range the one that is not
the program counter. -/
theorem derive_optimal_chain :
    let p : Profile := ⟨[⟨"b", 8, 16, .gpr⟩, ⟨"d", 24, 16, .gpr⟩, ⟨"a", 0, 16, .gpr⟩, ⟨"c", 16, 16, .gpr⟩, ⟨"pc", 48, 32, .gpr⟩,
      ⟨"ip", 48, 32, .gpr⟩, ⟨"flags", 80, 8, .gpr⟩, ⟨"z", 82, 1, .gpr⟩], some "pc"⟩
    let rs : List Register := [⟨"b", 8, 16, .gpr⟩, ⟨"ip", 48, 32, .gpr⟩]
    p.validate = .ok () ∧ (p.chosen .gpr).map (·.name) = ["a", "c", "ip"] ∧ (∀ r ∈ rs, p.Candidate .gpr r) ∧
      rs.Pairwise Register.Apart ∧ rs.length ≤ (p.chosen .gpr).length := by
  intro p rs
  have hp : p.validate = .ok () := by decide
  have hrs : ∀ r ∈ rs, p.Candidate .gpr r := by
    refine List.forall_mem_cons.2 ⟨⟨by decide, rfl, by decide, by decide, by decide, by decide⟩, ?_⟩
    exact List.forall_mem_singleton.2 ⟨by decide, rfl, by decide, by decide, by decide, by decide⟩
  have hapart : rs.Pairwise Register.Apart := by decide
  exact ⟨hp, by decide, hrs, hapart, (derive_optimal hp .gpr).2.2 rs hrs hapart⟩

/-! ## Enough to touch every register -/

theorem mem_flagless_of_leftOut (hp : p.Valid) (h : p.LeftOut r) : r ∈ flagless (p.ofClass r.cls) := by
  have hr := hp.fits r h.mem
  refine (mem_flagless_ofClass hp).2 ⟨h.mem, rfl, fun hsize => ?_, fun f hf hsize hin => ?_⟩
  · obtain ⟨f, hf, hbound, hrange⟩ := exists_bound_flag hp h.mem hsize
    have hfr : f.Contains r := by
      obtain ⟨hcls, hoffset, -⟩ : f.cls = r.cls ∧ f.offset = r.offset ∧ f.size = r.size := by
        simpa [Register.range] using hrange
      exact ⟨hcls, Nat.le_of_eq hoffset, Nat.le_of_eq (Register.limit_eq_of_range_eq hrange).symm⟩
    exact hfr.not_apart hr (h.apart f hf hbound)
  · obtain ⟨g, hg, hbound, hrange⟩ := exists_bound_flag hp hf hsize
    have hrg : r.Contains g := by
      obtain ⟨hcls, hoffset, -⟩ : g.cls = f.cls ∧ g.offset = f.offset ∧ g.size = f.size := by
        simpa [Register.range] using hrange
      obtain ⟨hcls', hoffset', hlimit⟩ := hin
      rw [← Register.limit_eq_of_range_eq hrange] at hlimit
      exact ⟨hcls'.trans hcls.symm, by omega, hlimit⟩
    exact hrg.not_apart (hp.fits g hg) (h.apart g hg hbound).symm

/-- A register that is left out lies in one that reaches the walk and is dropped there. -/
theorem exists_container_of_leftOut (hp : p.Valid) (h : p.LeftOut r) :
    ∃ o ∈ outermost (flagless (p.ofClass r.cls)), o.Contains r ∧ p.pc ≠ some o.name ∧ o ∉ wide p.pc (p.ofClass r.cls) := by
  have hr := hp.fits r h.mem
  obtain ⟨o, houter, hoffset, hlimit, -⟩ := exists_outermost (mem_flagless_of_leftOut hp h)
  obtain ⟨ho, hcls, howide, -⟩ := (mem_flagless_ofClass hp).1 (mem_outermost_iff.1 houter).1
  have hin : o.Contains r := ⟨hcls, hoffset, hlimit⟩
  refine ⟨o, houter, hin, fun hpc => ?_, fun hkept => ?_⟩
  · exact hin.not_apart hr (h.apartPc o ((hp.pc_eq_iff ho).2 hpc))
  · exact hin.not_apart hr (h.apart o ho ((bound_iff_mem_wide hp ho howide).2 (hcls.symm ▸ hkept)))

/-- The register that it lies in is dropped for a bound one, which starts before it and ends inside of it. -/
theorem exists_blocker_of_leftOut (hp : p.Valid) (h : p.LeftOut r) :
    ∃ o ∈ outermost (flagless (p.ofClass r.cls)), ∃ s ∈ wide p.pc (p.ofClass r.cls), o.Contains r ∧
      o ∉ wide p.pc (p.ofClass r.cls) ∧ s.offset < o.offset ∧ o.offset < s.limit ∧ s.limit ≤ r.offset := by
  obtain ⟨o, houter, hin, hpc, hdropped⟩ := exists_container_of_leftOut hp h
  obtain hkept | ⟨s, hs, hle, hlt⟩ := @mem_walk_or _ none _ _ (sortByOffset_pairwise _) (mem_sortByOffset.2 houter) hpc
  · exact absurd hkept hdropped
  have hcand := mem_wide_candidate hp hs
  have hbound : s.bound ∈ (derive p).items := (bound_iff_mem_wide hp hcand.mem hcand.wide).2 (hcand.cls.symm ▸ hs)
  have hrl := (hp.fits r h.mem).offset_lt_limit
  have hend : s.limit ≤ r.offset := by
    by_contra hover
    obtain ⟨-, hoffset, -⟩ := hin
    exact Register.not_apart hcand.cls.symm (by omega) (by omega) (h.apart s hcand.mem hbound)
  refine ⟨o, houter, s, hs, hin, hdropped, Nat.lt_of_le_of_ne hle fun heq => ?_, hlt, hend⟩
  -- two that start together are as long as each other, and the bound one ends before the other does
  have hfits : ∀ q ∈ outermost (flagless (p.ofClass r.cls)), q.Fits :=
    fun q hq => hp.fits q ((mem_flagless_ofClass hp).1 (mem_outermost_iff.1 hq).1).1
  have hlimit := (unnested_outermost _).limit_le hfits houter ((candidate_iff hp).1 hcand).1 (Nat.le_of_eq heq.symm)
  obtain ⟨-, -, hin⟩ := hin
  omega

/-- A register with room for it is left out only if it lies in a larger one that starts inside of a bound register and reaches
over its end. Where registers with a bit in common lie one in the other, none is left out. -/
theorem derive_maximal (h : p.validate = .ok ()) :
    (∀ r, p.LeftOut r → ∃ o ∈ p.registers, ∃ s ∈ p.registers, o.bound ∉ (derive p).items ∧ s.bound ∈ (derive p).items ∧
      o.Contains r ∧ s.cls = o.cls ∧ s.offset < o.offset ∧ o.offset < s.limit ∧ s.limit ≤ r.offset) ∧
    (p.Nested → ∀ r, ¬ p.LeftOut r) := by
  have hp := Profile.valid_of_validate h
  refine ⟨fun r hr => ?_, fun hnested r hr => ?_⟩
  · obtain ⟨o, houter, s, hs, hin, hdropped, hrange⟩ := exists_blocker_of_leftOut hp hr
    obtain ⟨ho, hcls, howide, -⟩ := (mem_flagless_ofClass hp).1 (mem_outermost_iff.1 houter).1
    have hcand := mem_wide_candidate hp hs
    have hunbound : o.bound ∉ (derive p).items := fun hb => hdropped (hcls ▸ (bound_iff_mem_wide hp ho howide).1 hb)
    have hbound : s.bound ∈ (derive p).items := (bound_iff_mem_wide hp hcand.mem hcand.wide).2 (hcand.cls.symm ▸ hs)
    exact ⟨o, ho, s, hcand.mem, hunbound, hbound, hin, hcand.cls.trans hcls.symm, hrange⟩
  · obtain ⟨o, houter, s, hs, ⟨-, -, hlimit⟩, -, hlt, hover, hend⟩ := exists_blocker_of_leftOut hp hr
    obtain ⟨ho, hcls, -⟩ := (mem_flagless_ofClass hp).1 (mem_outermost_iff.1 houter).1
    have hcand := mem_wide_candidate hp hs
    have hol := (hp.fits o ho).offset_lt_limit
    have hrl := (hp.fits r hr.mem).offset_lt_limit
    have hoverlap : ¬ o.Apart s := Register.not_apart (hcls.trans hcand.cls.symm) hover (by omega)
    rcases hnested o ho s hcand.mem hoverlap with ⟨-, hle, -⟩ | ⟨-, -, hle⟩
    · omega
    · omega

/-- Of three registers of which the second overlaps the first and has the third in it, the third is left out with the second.
Of the processor's own none is. -/
theorem derive_maximal_chain :
    let p : Profile := ⟨[⟨"a", 0, 16, .gpr⟩, ⟨"b", 8, 32, .gpr⟩, ⟨"c", 24, 8, .gpr⟩], none⟩
    (p.LeftOut ⟨"c", 24, 8, .gpr⟩ ∧ ∃ o ∈ p.registers, ∃ s ∈ p.registers, o.bound ∉ (derive p).items ∧
      s.bound ∈ (derive p).items ∧ o.Contains ⟨"c", 24, 8, .gpr⟩ ∧ s.cls = o.cls ∧ s.offset < o.offset ∧ o.offset < s.limit ∧
      s.limit ≤ 24) ∧
    Cpu.profile.validate = .ok () ∧ Cpu.profile.Nested ∧ ∀ r, ¬ Cpu.profile.LeftOut r := by
  intro p
  have hp : p.validate = .ok () := by decide
  have hleft : p.LeftOut ⟨"c", 24, 8, .gpr⟩ := ⟨by decide, by decide, by decide, nofun, by decide⟩
  have hcpu : Cpu.profile.validate = .ok () := by decide
  have hnested : Cpu.profile.Nested := by decide +kernel
  exact ⟨⟨hleft, (derive_maximal hp).1 _ hleft⟩, hcpu, hnested, (derive_maximal hcpu).2 hnested⟩

/-- Three registers of which the second overlaps the first and has the third in it: the third is left out with the second. -/
theorem register_left_out :
    let p : Profile := ⟨[⟨"a", 0, 16, .gpr⟩, ⟨"b", 8, 32, .gpr⟩, ⟨"c", 24, 8, .gpr⟩], none⟩
    p.validate = .ok () ∧ (derive p).items = [⟨"a", 16⟩] ∧ p.LeftOut ⟨"c", 24, 8, .gpr⟩ := by
  intro p
  exact ⟨by decide, by decide, ⟨by decide, by decide, by decide, nofun, by decide⟩⟩

end Binding
end SuperH
