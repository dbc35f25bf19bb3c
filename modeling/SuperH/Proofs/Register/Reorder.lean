import SuperH.Proofs.Register.Candidate

/-!
# The derived binding of a reordered profile

The order of a profile decides which of the registers with one range is bound, and nothing else.

* `flagless_perm`, `outermost_perm`, `map_range_wide` : each pass treats a reordered list alike, as far as ranges go;
* `mem_range_deriveClass_iff` : the ranges that are bound of a class;
* `Binding.BindsRange`, `derive_reorder` : a reordered profile has the same ranges bound, and the same names if no two
  registers have one range.
-/

namespace SuperH

theorem Profile.Valid.perm {p q : Profile} (hp : p.Valid) (h : p.registers.Perm q.registers) : q.Valid :=
  ⟨fun r hr => hp.fits r (h.mem_iff.2 hr), (h.map _).nodup_iff.1 hp.nodup⟩

namespace Binding

variable {pc : Option String} {rs ss : List Register} {r : Register} {cls : RegClass}

/-! ## The passes over a class -/

theorem flagless_perm (hnodup : rs.Nodup) (h : rs.Perm ss) : (flagless rs).Perm (flagless ss) := by
  refine (List.perm_ext_iff_of_nodup (hnodup.filter _) ((h.nodup_iff.1 hnodup).filter _)).2 fun r => ?_
  change r ∈ flagless rs ↔ r ∈ flagless ss
  simp only [mem_flagless_iff_forall, h.mem_iff]

theorem outermost_perm (h : rs.Perm ss) : (outermost rs).Perm (outermost ss) := by
  have hinside : (fun r => !rs.any (inside r)) = fun r => !ss.any (inside r) := by
    funext r
    rw [h.any_eq]
  unfold outermost
  rw [hinside]
  exact h.filter _

theorem sortByOffset_perm (rs : List Register) : (sortByOffset rs).Perm rs := by
  rw [sortByOffset_eq]
  exact List.perm_insertionSort _ rs

/-- Sorted registers have their ranges in one order, if the offset determines the range. -/
theorem map_range_sorted (h : rs.Perm ss) (hrs : rs.Pairwise fun r s => r.offset ≤ s.offset)
    (hss : ss.Pairwise fun r s => r.offset ≤ s.offset)
    (hrange : ∀ r ∈ rs, ∀ s ∈ rs, r.offset = s.offset → r.range = s.range) :
    rs.map Register.range = ss.map Register.range := by
  have hrs' : (rs.map Register.range).Pairwise fun x y => x.2.1 ≤ y.2.1 := List.pairwise_map.2 hrs
  have hss' : (ss.map Register.range).Pairwise fun x y => x.2.1 ≤ y.2.1 := List.pairwise_map.2 hss
  refine List.Perm.eq_of_pairwise (fun x y hx hy hle hge => ?_) hrs' hss' (h.map Register.range)
  obtain ⟨r, hr, rfl⟩ := List.mem_map.1 hx
  obtain ⟨s, hs, rfl⟩ := List.mem_map.1 hy
  exact hrange r hr s (h.mem_iff.2 hs) (Nat.le_antisymm hle hge)

/-- The walk of a class keeps the same ranges in whichever order the registers are listed. -/
theorem map_range_wide (h : rs.Perm ss) (hnodup : rs.Nodup) (hfits : ∀ r ∈ rs, r.Fits) (hcls : ∀ r ∈ rs, r.cls = cls) :
    (wide pc rs).map Register.range = (wide pc ss).map Register.range := by
  have hpasses : (sortByOffset (outermost (flagless rs))).Perm (sortByOffset (outermost (flagless ss))) :=
    (sortByOffset_perm _).trans ((outermost_perm (flagless_perm hnodup h)).trans (sortByOffset_perm _).symm)
  have hmem : ∀ r ∈ outermost (flagless rs), r ∈ rs :=
    fun r hr => (mem_flagless_iff.1 (mem_outermost_iff.1 hr).1).1
  unfold wide
  rw [walk_filter pc, walk_filter pc]
  refine map_range_walk (map_range_sorted (hpasses.filter _) ?_ ?_ fun r hr s hs hoffset => ?_) rfl
  · exact (sortByOffset_pairwise _).sublist List.filter_sublist
  · exact (sortByOffset_pairwise _).sublist List.filter_sublist
  · have hr := mem_sortByOffset.1 (List.mem_filter.1 hr).1
    have hs := mem_sortByOffset.1 (List.mem_filter.1 hs).1
    have hsize := (unnested_outermost _).size_eq (fun q hq => hfits q (hmem q hq)) hr hs hoffset
    rw [Register.range, Register.range, hcls r (hmem r hr), hcls s (hmem s hs), hoffset, hsize]

/-- The ranges that are bound of a class are those of its one-bit registers and those that the walk keeps. -/
theorem mem_range_deriveClass_iff {x : RegClass × Nat × Nat} (hcls : ∀ r ∈ rs, r.cls = cls) :
    x ∈ (deriveClass pc rs).map Register.range ↔
      (∃ r ∈ rs, r.size = 1 ∧ r.range = x) ∨ x ∈ (wide pc rs).map Register.range := by
  rw [deriveClass_eq, List.map_append, List.mem_append]
  refine or_congr_left ⟨fun h => ?_, fun ⟨r, hr, hsize, hx⟩ => ?_⟩
  · obtain ⟨f, hf, hx⟩ := List.mem_map.1 h
    exact ⟨f, (flags_sublist rs).subset hf, size_of_mem_flags hf, hx⟩
  · obtain ⟨f, hf, hoffset⟩ := exists_flag_at hr hsize
    refine List.mem_map.2 ⟨f, hf, ?_⟩
    rw [← hx, Register.range, Register.range, hcls f ((flags_sublist rs).subset hf), hcls r hr, hoffset, hsize,
      size_of_mem_flags hf]

/-! ## The binding -/

/-- A register with that class, position and size is bound. -/
def BindsRange (b : Binding) (p : Profile) (x : RegClass × Nat × Nat) : Prop :=
  ∃ item ∈ b.items, ∃ r, p.get? item.name = some r ∧ r.range = x

variable {p q : Profile}

theorem bindsRange_iff (hp : p.Valid) (x : RegClass × Nat × Nat) :
    (derive p).BindsRange p x ↔ x ∈ (deriveClass p.pc (p.ofClass x.1)).map Register.range := by
  rw [List.mem_map]
  constructor
  · rintro ⟨item, hitem, r, hget, rfl⟩
    rw [derive_items] at hitem
    obtain ⟨s, hs, rfl⟩ := List.mem_map.1 hitem
    have hsr : s = r := Option.some.inj ((registers_known hp s hs).symm.trans hget)
    rw [← hsr]
    exact ⟨s, mem_registers_iff.1 hs, rfl⟩
  · rintro ⟨r, hr, rfl⟩
    have hbound : r ∈ registers p := mem_registers_iff.2 hr
    rw [BindsRange, derive_items]
    exact ⟨r.bound, List.mem_map_of_mem hbound, r, registers_known hp r hbound, rfl⟩

theorem bindsRange_of_perm (hp : p.Valid) (hperm : p.registers.Perm q.registers) (hpc : p.pc = q.pc)
    (x : RegClass × Nat × Nat) : (derive p).BindsRange p x ↔ (derive q).BindsRange q x := by
  have hclass : (p.ofClass x.1).Perm (q.ofClass x.1) := hperm.filter _
  have hnodup : (p.ofClass x.1).Nodup := (List.Nodup.of_map _ hp.nodup).filter _
  have hfits : ∀ r ∈ p.ofClass x.1, r.Fits := fun r hr => hp.fits r (Profile.mem_ofClass.1 hr).1
  have hcls : ∀ r ∈ p.ofClass x.1, r.cls = x.1 := fun r hr => (Profile.mem_ofClass.1 hr).2
  have hcls' : ∀ r ∈ q.ofClass x.1, r.cls = x.1 := fun r hr => (Profile.mem_ofClass.1 hr).2
  rw [bindsRange_iff hp, bindsRange_iff (hp.perm hperm), mem_range_deriveClass_iff hcls, mem_range_deriveClass_iff hcls',
    ← hpc, map_range_wide hclass hnodup hfits hcls]
  simp only [hclass.mem_iff]

/-- Where ranges are of one register each, a register that is bound is bound in whichever order the profile lists it. -/
theorem mem_registers_of_perm (hp : p.Valid) (hperm : p.registers.Perm q.registers) (hpc : p.pc = q.pc)
    (hrange : (p.registers.map Register.range).Nodup) (h : r ∈ registers p) : r ∈ registers q := by
  have hmem := mem_of_mem_registers h
  have hbinds : (derive p).BindsRange p r.range := by
    rw [bindsRange_iff hp]
    exact List.mem_map_of_mem (mem_registers_iff.1 h)
  rw [bindsRange_of_perm hp hperm hpc, bindsRange_iff (hp.perm hperm)] at hbinds
  obtain ⟨s, hs, heq⟩ := List.mem_map.1 hbinds
  have hsmem := hperm.mem_iff.2 (Profile.mem_ofClass.1 (mem_of_mem_deriveClass hs)).1
  have hsr : s = r := List.inj_on_of_nodup_map hrange hsmem hmem heq
  rw [hsr] at hs
  exact mem_registers_iff.2 hs

/-- The same ranges are bound in whichever order a profile lists its registers, and if no two of them have one range, the
same names are. -/
theorem derive_reorder (h : p.validate = .ok ()) (hperm : p.registers.Perm q.registers) (hpc : p.pc = q.pc) :
    (∀ x, (derive p).BindsRange p x ↔ (derive q).BindsRange q x) ∧
      ((p.registers.map Register.range).Nodup →
        ∀ name, name ∈ (derive p).items.map (·.name) ↔ name ∈ (derive q).items.map (·.name)) := by
  have hp := Profile.valid_of_validate h
  refine ⟨bindsRange_of_perm hp hperm hpc, fun hrange name => ?_⟩
  have hrange' : (q.registers.map Register.range).Nodup := (hperm.map _).nodup_iff.1 hrange
  have hregisters : ∀ r, r ∈ registers p ↔ r ∈ registers q := fun r =>
    ⟨mem_registers_of_perm hp hperm hpc hrange, mem_registers_of_perm (hp.perm hperm) hperm.symm hpc.symm hrange'⟩
  simp only [derive_items, List.map_map, List.mem_map, hregisters]

/-- A profile read backwards, with two flags at one position and two names for the range of the program counter: the other
flag is bound, for the same range. Without the second flag and the second name, the same names are bound. -/
theorem derive_reorder_twins :
    let p : Profile := ⟨[⟨"pc", 0, 32, .gpr⟩, ⟨"ip", 0, 32, .gpr⟩, ⟨"a", 40, 16, .gpr⟩, ⟨"b", 48, 16, .gpr⟩,
      ⟨"zf", 6, 1, .flg⟩, ⟨"zero", 6, 1, .flg⟩], some "pc"⟩
    let q : Profile := ⟨p.registers.reverse, some "pc"⟩
    let p' : Profile := ⟨[⟨"pc", 0, 32, .gpr⟩, ⟨"a", 40, 16, .gpr⟩, ⟨"b", 48, 16, .gpr⟩, ⟨"zf", 6, 1, .flg⟩], some "pc"⟩
    let q' : Profile := ⟨p'.registers.reverse, some "pc"⟩
    ((derive p).items.map (·.name) = ["ip", "a", "zf"] ∧ (derive q).items.map (·.name) = ["ip", "a", "zero"] ∧
      ∀ x, (derive p).BindsRange p x ↔ (derive q).BindsRange q x) ∧
    ((derive p').items.map (·.name) = ["a", "zf"] ∧
      ∀ name, name ∈ (derive p').items.map (·.name) ↔ name ∈ (derive q').items.map (·.name)) := by
  intro p q p' q'
  have hp : p.validate = .ok () := by decide
  have hp' : p'.validate = .ok () := by decide
  have hperm : p.registers.Perm q.registers := (List.reverse_perm _).symm
  have hperm' : p'.registers.Perm q'.registers := (List.reverse_perm _).symm
  have hrange : (p'.registers.map Register.range).Nodup := by decide
  exact ⟨⟨by decide, by decide, (derive_reorder hp hperm rfl).1⟩, by decide, (derive_reorder hp' hperm' rfl).2 hrange⟩

end Binding
end SuperH
