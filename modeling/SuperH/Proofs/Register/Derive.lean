import Mathlib.Data.List.Sort
import SuperH.Proofs.Register.View
import SuperH.Register.Binding

/-!
# The derived binding

* `mem_flags_iff` : the bound flags are the first one-bit register at each position;
* `walk_sublist`, `walk_pairwise` : the walk keeps registers that each end before the next one starts;
* `Binding.registers` : the registers that `derive` binds (`derive_items`), known to their profile (`registers_known`), with
  names of their own (`registers_nodup`) and apart from each other (`registers_apart`);
* `Register.Precedes`, `Binding.WellFormed` : the order of bound registers, and what every derived binding satisfies
  (`derive_wellFormed`).
-/

namespace SuperH

/-! ## Registers apart -/

theorem RegClass.ne_of_sublist {c d : RegClass} (h : [c, d].Sublist RegClass.all) : c ≠ d := by
  have hnodup : RegClass.all.Nodup := by decide
  have hpair := hnodup.sublist h
  simpa using hpair

namespace Register

variable {r s : Register}

theorem apart_of_cls_ne (h : r.cls ≠ s.cls) : r.Apart s := by
  unfold Apart overlaps
  simp [h]

theorem apart_of_limit_le (h : r.limit ≤ s.offset) : r.Apart s := by
  unfold Apart overlaps
  have hs : ¬ s.offset < r.limit := by omega
  simp [hs]

theorem Fits.offset_lt_limit (h : r.Fits) : r.offset < r.limit := by
  have hpos := h.pos
  rw [h.limit_eq]
  omega

theorem Fits.not_apart_self (h : r.Fits) : ¬ r.Apart r := by
  have hlt := h.offset_lt_limit
  unfold Apart overlaps
  simp [hlt]

end Register

namespace Profile

variable {p : Profile}

/-- A register is found under its name. -/
theorem Valid.get?_of_mem (hp : p.Valid) {r : Register} (hr : r ∈ p.registers) : p.get? r.name = some r := by
  have hsome : (p.get? r.name).isSome := by
    unfold get?
    rw [List.find?_isSome]
    exact ⟨r, hr, by simp⟩
  obtain ⟨s, hs⟩ := Option.isSome_iff_exists.1 hsome
  obtain ⟨hmem, hname⟩ := mem_of_get? hs
  have heq : s = r := List.inj_on_of_nodup_map hp.nodup hmem hr hname
  rw [hs, heq]

theorem mem_ofClass {cls : RegClass} {r : Register} : r ∈ p.ofClass cls ↔ r ∈ p.registers ∧ r.cls = cls := by
  simp [ofClass]

end Profile

namespace Binding

variable {rs : List Register} {r s : Register}

/-! ## Flags -/

theorem firstPerOffset_sublist (rs : List Register) : (firstPerOffset rs).Sublist rs := by
  induction rs with
  | nil => exact List.Sublist.refl _
  | cons r rs ih =>
    apply List.Sublist.cons_cons
    exact List.filter_sublist.trans ih

theorem firstPerOffset_pairwise (rs : List Register) : (firstPerOffset rs).Pairwise fun r s => r.offset ≠ s.offset := by
  induction rs with
  | nil => exact List.Pairwise.nil
  | cons r rs ih =>
    unfold firstPerOffset
    rw [List.pairwise_cons]
    refine ⟨?_, ih.sublist List.filter_sublist⟩
    intro s hs
    have hne : s.offset ≠ r.offset := by simpa using (List.mem_filter.1 hs).2
    exact hne.symm

theorem mem_firstPerOffset_iff : s ∈ firstPerOffset rs ↔ rs.find? (·.offset == s.offset) = some s := by
  induction rs with
  | nil => simp [firstPerOffset]
  | cons r rs ih =>
    unfold firstPerOffset
    rw [List.mem_cons, List.mem_filter, ih, List.find?_cons]
    by_cases h : r.offset = s.offset
    · have hbeq : (r.offset == s.offset) = true := by simpa using h
      have hout : (s.offset != r.offset) = false := by simpa using h.symm
      simp only [hbeq, hout, Bool.false_eq_true, and_false, or_false, Option.some.injEq]
      exact eq_comm
    · have hbeq : (r.offset == s.offset) = false := by simpa using h
      have hne : s ≠ r := by
        rintro rfl
        exact h rfl
      simp [hbeq, hne, Ne.symm h]

theorem flags_sublist (rs : List Register) : (flags rs).Sublist rs :=
  (firstPerOffset_sublist _).trans List.filter_sublist

/-- A bound flag is the first one-bit register at its position. -/
theorem mem_flags_iff : s ∈ flags rs ↔ rs.find? (fun q => q.size == 1 && q.offset == s.offset) = some s := by
  unfold flags
  rw [mem_firstPerOffset_iff, List.find?_filter]
  simp only [Bool.decide_and, Bool.decide_eq_true]

theorem size_of_mem_flags (h : s ∈ flags rs) : s.size = 1 := by
  have hmem := (firstPerOffset_sublist _).subset h
  have hsize := (List.mem_filter.1 hmem).2
  simpa using hsize

/-! ## The walk -/

theorem insertByOffset_eq (r : Register) (rs : List Register) :
    insertByOffset r rs = rs.orderedInsert (fun r s => r.offset ≤ s.offset) r := by
  induction rs with
  | nil => rfl
  | cons s rs ih =>
    unfold insertByOffset
    rw [ih]
    rfl

theorem sortByOffset_eq (rs : List Register) :
    sortByOffset rs = rs.insertionSort fun r s => r.offset ≤ s.offset := by
  induction rs with
  | nil => rfl
  | cons r rs ih =>
    unfold sortByOffset
    rw [insertByOffset_eq, ih]
    rfl

theorem mem_sortByOffset : r ∈ sortByOffset rs ↔ r ∈ rs := by
  rw [sortByOffset_eq]
  exact List.mem_insertionSort _

theorem sortByOffset_pairwise (rs : List Register) : (sortByOffset rs).Pairwise fun r s => r.offset ≤ s.offset := by
  have htotal : Std.Total fun r s : Register => r.offset ≤ s.offset := ⟨fun r s => Nat.le_total r.offset s.offset⟩
  have htrans : IsTrans Register fun r s => r.offset ≤ s.offset := ⟨fun _ _ _ => Nat.le_trans⟩
  rw [sortByOffset_eq]
  exact List.pairwise_insertionSort _ rs

theorem walk_sublist (pc : Option String) (last : Option Register) (rs : List Register) :
    (walk pc last rs).Sublist rs := by
  induction rs generalizing last with
  | nil => exact List.Sublist.refl _
  | cons r rs ih =>
    unfold walk
    split
    · exact (ih last).cons r
    · exact (ih (some r)).cons_cons r

/-- What the walk keeps starts where the last kept register has ended. -/
theorem limit_le_of_mem_walk {pc : Option String} (hsorted : rs.Pairwise fun r s => r.offset ≤ s.offset)
    (h : s ∈ walk pc (some r) rs) : r.limit ≤ s.offset := by
  induction rs with
  | nil => cases h
  | cons q rs ih =>
    rw [List.pairwise_cons] at hsorted
    unfold walk at h
    split at h
    · exact ih hsorted.2 h
    · rename_i hkeep
      have hstart : r.limit ≤ q.offset ∧ pc ≠ some q.name := by simpa using hkeep
      rcases List.mem_cons.1 h with rfl | h
      · exact hstart.1
      · -- what comes after the next kept register starts no earlier than it
        have hs : q.offset ≤ s.offset := hsorted.1 s ((walk_sublist ..).subset h)
        omega

/-- Each register that the walk keeps has ended where a later one starts. -/
theorem walk_pairwise {pc : Option String} {last : Option Register}
    (hsorted : rs.Pairwise fun r s => r.offset ≤ s.offset) :
    (walk pc last rs).Pairwise fun r s => r.limit ≤ s.offset := by
  induction rs generalizing last with
  | nil => exact List.Pairwise.nil
  | cons r rs ih =>
    rw [List.pairwise_cons] at hsorted
    unfold walk
    split
    · exact ih hsorted.2
    · rw [List.pairwise_cons]
      exact ⟨fun s hs => limit_le_of_mem_walk hsorted.2 hs, ih hsorted.2⟩

theorem mem_flagless_iff : r ∈ flagless rs ↔ r ∈ rs ∧ r.size ≠ 1 ∧ ∀ f ∈ flags rs, covers r f = false := by
  simp [flagless]

/-- The wider registers that are bound, by offset. -/
def wide (pc : Option String) (rs : List Register) : List Register :=
  walk pc none (sortByOffset (outermost (flagless rs)))

theorem mem_flagless_of_mem_wide {pc : Option String} (h : r ∈ wide pc rs) : r ∈ flagless rs := by
  have hsorted : r ∈ sortByOffset (outermost (flagless rs)) := (walk_sublist ..).subset h
  rw [mem_sortByOffset] at hsorted
  exact (List.mem_filter.1 hsorted).1

theorem wide_pairwise (pc : Option String) (rs : List Register) :
    (wide pc rs).Pairwise fun r s => r.limit ≤ s.offset := walk_pairwise (sortByOffset_pairwise _)

theorem flags_apart (hfits : ∀ r ∈ rs, r.Fits) : (flags rs).Pairwise Register.Apart := by
  refine (firstPerOffset_pairwise _).imp_of_mem ?_
  intro r s hr hs hne
  have hr₁ := size_of_mem_flags hr
  have hs₁ := size_of_mem_flags hs
  have hrl := (hfits r ((flags_sublist rs).subset hr)).limit_eq
  have hsl := (hfits s ((flags_sublist rs).subset hs)).limit_eq
  rcases Nat.lt_or_gt_of_ne hne with hlt | hgt
  · exact Register.apart_of_limit_le (by omega)
  · exact (Register.apart_of_limit_le (by omega)).symm

/-- A bound flag lies outside of the wider registers that are bound. -/
theorem flags_apart_wide {pc : Option String} (hfits : ∀ r ∈ rs, r.Fits) (hr : r ∈ flags rs) (hs : s ∈ wide pc rs) :
    r.Apart s := by
  obtain ⟨hmem, -, hfree⟩ := mem_flagless_iff.1 (mem_flagless_of_mem_wide hs)
  have hcover := hfree r hr
  have hsize := size_of_mem_flags hr
  have hrl := (hfits r ((flags_sublist rs).subset hr)).limit_eq
  unfold covers at hcover
  by_cases hle : s.offset ≤ r.offset
  · have hend : s.limit ≤ r.offset := by simpa [hle] using hcover
    exact (Register.apart_of_limit_le hend).symm
  · exact Register.apart_of_limit_le (by omega)

/-! ## One class -/

theorem deriveClass_eq (pc : Option String) (rs : List Register) : deriveClass pc rs = flags rs ++ wide pc rs := rfl

theorem mem_of_mem_deriveClass {pc : Option String} (h : r ∈ deriveClass pc rs) : r ∈ rs := by
  rw [deriveClass_eq, List.mem_append] at h
  rcases h with h | h
  · exact (flags_sublist rs).subset h
  · exact (mem_flagless_iff.1 (mem_flagless_of_mem_wide h)).1

theorem mem_deriveClass_iff_of_size {pc : Option String} (hsize : r.size = 1) :
    r ∈ deriveClass pc rs ↔ r ∈ flags rs := by
  rw [deriveClass_eq, List.mem_append]
  constructor
  · rintro (h | h)
    · exact h
    · exact absurd hsize (mem_flagless_iff.1 (mem_flagless_of_mem_wide h)).2.1
  · exact Or.inl

theorem deriveClass_apart {pc : Option String} (hfits : ∀ r ∈ rs, r.Fits) :
    (deriveClass pc rs).Pairwise Register.Apart := by
  rw [deriveClass_eq, List.pairwise_append]
  refine ⟨flags_apart hfits, ?_, fun r hr s hs => flags_apart_wide hfits hr hs⟩
  exact (wide_pairwise pc rs).imp Register.apart_of_limit_le

/-! ## All classes -/

/-- The registers that are bound. -/
def registers (p : Profile) : List Register := RegClass.all.flatMap fun cls => deriveClass p.pc (p.ofClass cls)

theorem derive_items (p : Profile) : (derive p).items = (registers p).map Register.bound := List.map_flatMap.symm

variable {p : Profile}

theorem mem_registers_iff : r ∈ registers p ↔ r ∈ deriveClass p.pc (p.ofClass r.cls) := by
  have hall : r.cls ∈ RegClass.all := by cases r.cls <;> decide
  unfold registers
  rw [List.mem_flatMap]
  constructor
  · rintro ⟨cls, -, h⟩
    have hcls := (Profile.mem_ofClass.1 (mem_of_mem_deriveClass h)).2
    exact hcls ▸ h
  · intro h
    exact ⟨r.cls, hall, h⟩

theorem mem_of_mem_registers (h : r ∈ registers p) : r ∈ p.registers :=
  (Profile.mem_ofClass.1 (mem_of_mem_deriveClass (mem_registers_iff.1 h))).1

theorem registers_known (hp : p.Valid) : ∀ r ∈ registers p, p.get? r.name = some r :=
  fun _ hr => hp.get?_of_mem (mem_of_mem_registers hr)

theorem registers_fits (hp : p.Valid) : ∀ r ∈ registers p, r.Fits :=
  fun r hr => hp.fits r (mem_of_mem_registers hr)

/-- A relation holds between bound registers in order if it does within each class and between different ones. -/
theorem registers_pairwise {R : Register → Register → Prop}
    (hwithin : ∀ cls, (deriveClass p.pc (p.ofClass cls)).Pairwise R)
    (hbetween : ∀ r s : Register, [r.cls, s.cls].Sublist RegClass.all → R r s) : (registers p).Pairwise R := by
  unfold registers
  rw [List.pairwise_flatMap]
  refine ⟨fun cls _ => hwithin cls, ?_⟩
  rw [List.pairwise_iff_forall_sublist]
  intro c d hcd r hr s hs
  have hr := (Profile.mem_ofClass.1 (mem_of_mem_deriveClass hr)).2
  have hs := (Profile.mem_ofClass.1 (mem_of_mem_deriveClass hs)).2
  apply hbetween
  rw [hr, hs]
  exact hcd

theorem registers_apart (hp : p.Valid) : (registers p).Pairwise Register.Apart := by
  refine registers_pairwise (fun cls => ?_) fun r s h => ?_
  · apply deriveClass_apart
    intro r hr
    exact hp.fits r (Profile.mem_ofClass.1 hr).1
  · exact Register.apart_of_cls_ne (RegClass.ne_of_sublist h)

theorem registers_nodup (hp : p.Valid) : ((registers p).map (·.name)).Nodup := by
  have hself : (registers p).Nodup := by
    refine (registers_apart hp).imp_of_mem ?_
    rintro r s hr - hapart rfl
    exact (registers_fits hp r hr).not_apart_self hapart
  refine List.Nodup.map_on ?_ hself
  intro r hr s hs hname
  exact List.inj_on_of_nodup_map hp.nodup (mem_of_mem_registers hr) (mem_of_mem_registers hs) hname

end Binding

/-! ## Well-formed bindings -/

/-- The order of bound registers: by class in the fixed order, in a class the flags in profile order, and then the others
by offset. -/
inductive Register.Precedes (p : Profile) (r s : Register) : Prop
  | cls : [r.cls, s.cls].Sublist RegClass.all → r.Precedes p s
  | flags : r.cls = s.cls → r.size = 1 → s.size = 1 → [r, s].Sublist p.registers → r.Precedes p s
  | flagFirst : r.cls = s.cls → r.size = 1 → s.size ≠ 1 → r.Precedes p s
  | offset : r.cls = s.cls → r.size ≠ 1 → s.size ≠ 1 → r.offset < s.offset → r.Precedes p s

/-- Both registers are flags, and they are the same bit. -/
def Register.sameFlag (r s : Register) : Bool := s.size == 1 && s.cls == r.cls && s.offset == r.offset

namespace Binding

/-- The bound registers are registers of the profile, no two of them have a bit in common, they contain the first flag
at each position and no other one there, and they stand in order. -/
structure WellFormed (p : Profile) (b : Binding) : Prop where
  known : ∀ x ∈ b.items, ∃ r, p.get? x.name = some r ∧ r.size = x.size
  nodup : (b.items.map (·.name)).Nodup
  apart : b.items.Pairwise fun x y => ∀ r s, p.get? x.name = some r → p.get? y.name = some s → r.overlaps s = false
  flags : ∀ r ∈ p.registers, r.size = 1 → ∃ first, p.registers.find? r.sameFlag = some first ∧
    ∀ s ∈ p.registers, r.sameFlag s → (s.bound ∈ b.items ↔ s = first)
  ordered : b.items.Pairwise fun x y => ∀ r s, p.get? x.name = some r → p.get? y.name = some s → r.Precedes p s

variable {p : Profile}

theorem deriveClass_precedes (hp : p.Valid) (cls : RegClass) :
    (deriveClass p.pc (p.ofClass cls)).Pairwise (Register.Precedes p) := by
  have hcls : ∀ r ∈ deriveClass p.pc (p.ofClass cls), r.cls = cls := by
    intro r hr
    exact (Profile.mem_ofClass.1 (mem_of_mem_deriveClass hr)).2
  rw [deriveClass_eq] at hcls ⊢
  have hflag : ∀ r ∈ flags (p.ofClass cls), r.cls = cls := fun r hr => hcls r (List.mem_append_left _ hr)
  have hwide : ∀ r ∈ wide p.pc (p.ofClass cls), r.cls = cls ∧ r.size ≠ 1 ∧ r.Fits := by
    intro r hr
    obtain ⟨hmem, hsize, -⟩ := mem_flagless_iff.1 (mem_flagless_of_mem_wide hr)
    exact ⟨hcls r (List.mem_append_right _ hr), hsize, hp.fits r (Profile.mem_ofClass.1 hmem).1⟩
  rw [List.pairwise_append]
  refine ⟨?_, ?_, ?_⟩
  · have hsub : (flags (p.ofClass cls)).Sublist p.registers := (flags_sublist _).trans List.filter_sublist
    have horder : (flags (p.ofClass cls)).Pairwise fun r s => [r, s].Sublist p.registers := by
      rw [List.pairwise_iff_forall_sublist]
      exact fun h => h.trans hsub
    refine horder.imp_of_mem ?_
    intro r s hr hs h
    have heq : r.cls = s.cls := (hflag r hr).trans (hflag s hs).symm
    exact .flags heq (size_of_mem_flags hr) (size_of_mem_flags hs) h
  · refine (wide_pairwise p.pc _).imp_of_mem ?_
    intro r s hr hs h
    obtain ⟨hrcls, hrsize, hrfits⟩ := hwide r hr
    obtain ⟨hscls, hssize, -⟩ := hwide s hs
    have hlt : r.offset < s.offset := Nat.lt_of_lt_of_le hrfits.offset_lt_limit h
    exact .offset (hrcls.trans hscls.symm) hrsize hssize hlt
  · intro r hr s hs
    obtain ⟨hscls, hssize, -⟩ := hwide s hs
    exact .flagFirst ((hflag r hr).trans hscls.symm) (size_of_mem_flags hr) hssize

/-- A flag is bound exactly if it is the first one of its bit. -/
theorem mem_registers_iff_of_sameFlag {r s : Register} (h : r.sameFlag s) :
    s ∈ registers p ↔ p.registers.find? r.sameFlag = some s := by
  have hparts : (s.size = 1 ∧ s.cls = r.cls) ∧ s.offset = r.offset := by simpa [Register.sameFlag] using h
  obtain ⟨⟨hsize, hcls⟩, hoffset⟩ := hparts
  have hpred : (fun q : Register => decide ((q.cls == s.cls) = true ∧ (q.size == 1 && q.offset == s.offset) = true)) =
      r.sameFlag := by
    funext q
    rw [hcls, hoffset]
    unfold Register.sameFlag
    rw [Bool.eq_iff_iff]
    simp only [decide_eq_true_eq, Bool.and_eq_true]
    tauto
  rw [mem_registers_iff, mem_deriveClass_iff_of_size hsize, mem_flags_iff, Profile.ofClass, List.find?_filter, hpred]

theorem bound_mem_derive_iff (hp : p.Valid) {s : Register} (hs : s ∈ p.registers) :
    s.bound ∈ (derive p).items ↔ s ∈ registers p := by
  rw [derive_items, List.mem_map]
  constructor
  · rintro ⟨r, hr, heq⟩
    have hname : r.name = s.name := congrArg Bound.name heq
    have hrs : r = s := List.inj_on_of_nodup_map hp.nodup (mem_of_mem_registers hr) hs hname
    exact hrs ▸ hr
  · intro h
    exact ⟨s, h, rfl⟩

/-- What holds of the bound registers in order holds of the items of the binding. -/
theorem items_pairwise (hp : p.Valid) {R : Register → Register → Prop} (h : (registers p).Pairwise R) :
    (derive p).items.Pairwise fun x y => ∀ r s, p.get? x.name = some r → p.get? y.name = some s → R r s := by
  rw [derive_items, List.pairwise_map]
  refine h.imp_of_mem ?_
  intro r s hr hs hR r' s' hr' hs'
  have hr₀ : p.get? r.bound.name = some r := registers_known hp r hr
  have hs₀ : p.get? s.bound.name = some s := registers_known hp s hs
  rw [hr₀] at hr'
  rw [hs₀] at hs'
  cases hr'
  cases hs'
  exact hR

/-- The binding that is derived from a valid profile is well formed. -/
theorem derive_wellFormed (h : p.validate = .ok ()) : (derive p).WellFormed p := by
  have hp : p.Valid := Profile.valid_of_validate h
  constructor
  · intro x hx
    rw [derive_items] at hx
    obtain ⟨r, hr, rfl⟩ := List.mem_map.1 hx
    exact ⟨r, registers_known hp r hr, rfl⟩
  · rw [derive_items, List.map_map]
    exact registers_nodup hp
  · exact items_pairwise hp (registers_apart hp)
  · intro r hr hsize
    have hself : r.sameFlag r := by simp [Register.sameFlag, hsize]
    obtain ⟨first, hfirst⟩ := Option.isSome_iff_exists.1 (List.find?_isSome.2 ⟨r, hr, hself⟩)
    refine ⟨first, hfirst, ?_⟩
    intro s hs hsame
    rw [bound_mem_derive_iff hp hs, mem_registers_iff_of_sameFlag hsame, hfirst, Option.some.injEq]
    exact eq_comm
  · refine items_pairwise hp (registers_pairwise (deriveClass_precedes hp) fun r s => ?_)
    exact .cls

/-- A layout with a contained register, a partial overlap, a flag inside of a register and a second name for it. -/
theorem derive_wellFormed_overlapping :
    let p : Profile := ⟨[⟨"ecx_hi", 96, 48, .gpr⟩, ⟨"eflags", 0, 32, .flg⟩, ⟨"ax", 0, 16, .gpr⟩, ⟨"eax", 0, 32, .gpr⟩,
      ⟨"rcx", 64, 64, .gpr⟩, ⟨"zf", 6, 1, .flg⟩, ⟨"cf", 0, 1, .flg⟩, ⟨"carry", 0, 1, .flg⟩, ⟨"eip", 160, 32, .gpr⟩],
      some "eip"⟩
    p.validate = .ok () ∧ (derive p).items = [⟨"eax", 32⟩, ⟨"rcx", 64⟩, ⟨"zf", 1⟩, ⟨"cf", 1⟩] ∧
      (derive p).WellFormed p := by
  intro p
  have hp : p.validate = .ok () := by decide
  exact ⟨hp, by decide, derive_wellFormed hp⟩

end Binding
end SuperH
