import Mathlib.Data.Finset.Max
import SuperH.Proofs.Register.Derive

/-!
# The walk by offset

* `Binding.Unnested` : registers of which none is a part of a larger one, so that they end in the order in which they
  start (`Unnested.limit_le`);
* `mem_walk_or` : what the walk drops starts inside of what it keeps;
* `length_le_walk` : the walk keeps as many of such registers as can be apart from each other;
* `map_range_walk` : which ranges it keeps is a matter of the ranges alone.
-/

namespace SuperH

/-- The class, the position and the size of a register. -/
def Register.range (r : Register) : RegClass × Nat × Nat := (r.cls, r.offset, r.size)

theorem Register.limit_eq_of_range_eq {r s : Register} (h : r.range = s.range) : r.limit = s.limit := by
  obtain ⟨-, hoffset, hsize⟩ : r.cls = s.cls ∧ r.offset = s.offset ∧ r.size = s.size := by simpa [range] using h
  rw [limit, limit, hoffset, hsize]

/-- Registers of one class that start before each other's end have a bit in common. -/
theorem Register.not_apart {r s : Register} (hcls : r.cls = s.cls) (h : r.offset < s.limit) (h' : s.offset < r.limit) :
    ¬ r.Apart s := by
  unfold Apart overlaps
  simp [hcls, h, h']

namespace Binding

variable {pc : Option String} {last : Option Register} {rs ss : List Register} {r s : Register}

/-! ## Registers that are no part of each other -/

theorem inside_iff : inside r s = true ↔ r.size < s.size ∧ s.offset ≤ r.offset ∧ r.limit ≤ s.limit := by
  simp [inside, and_assoc]

/-- No register is a part of a larger one. -/
def Unnested (rs : List Register) : Prop := ∀ r ∈ rs, ∀ s ∈ rs, inside r s = false

theorem Unnested.subset (h : Unnested ss) (hsub : rs ⊆ ss) : Unnested rs :=
  fun r hr s hs => h r (hsub hr) s (hsub hs)

theorem mem_outermost_iff : r ∈ outermost rs ↔ r ∈ rs ∧ ∀ s ∈ rs, inside r s = false := by
  simp [outermost]

theorem unnested_outermost (rs : List Register) : Unnested (outermost rs) := by
  intro r hr s hs
  rw [mem_outermost_iff] at hr hs
  exact hr.2 s hs.1

theorem unnested_sorted (rs : List Register) : Unnested (sortByOffset (outermost rs)) :=
  (unnested_outermost rs).subset fun _ => mem_sortByOffset.1

/-- Of two registers, the one that starts first ends first. -/
theorem Unnested.limit_le (h : Unnested rs) (hfits : ∀ r ∈ rs, r.Fits) (hr : r ∈ rs) (hs : s ∈ rs)
    (hle : r.offset ≤ s.offset) : r.limit ≤ s.limit := by
  have hrl := (hfits r hr).limit_eq
  have hsl := (hfits s hs).limit_eq
  by_contra hlt
  have hinside : inside s r = true := inside_iff.2 ⟨by omega, hle, by omega⟩
  rw [h s hs r hr] at hinside
  cases hinside

/-- Registers that start together are as long as each other. -/
theorem Unnested.size_eq (h : Unnested rs) (hfits : ∀ r ∈ rs, r.Fits) (hr : r ∈ rs) (hs : s ∈ rs)
    (heq : r.offset = s.offset) : r.size = s.size := by
  have hrl := (hfits r hr).limit_eq
  have hsl := (hfits s hs).limit_eq
  have hle := h.limit_le hfits hr hs (Nat.le_of_eq heq)
  have hge := h.limit_le hfits hs hr (Nat.le_of_eq heq.symm)
  omega

/-- Every register is a part of one that is outermost. -/
theorem exists_outermost (hr : r ∈ rs) : ∃ o ∈ outermost rs, o.offset ≤ r.offset ∧ r.limit ≤ o.limit ∧ r.size ≤ o.size := by
  let around := rs.toFinset.filter fun o => o.offset ≤ r.offset ∧ r.limit ≤ o.limit ∧ r.size ≤ o.size
  have hself : r ∈ around := by simp [around, hr]
  obtain ⟨o, ho, hlargest⟩ := around.exists_max_image Register.size ⟨r, hself⟩
  obtain ⟨hmem, hoffset, hlimit, hsize⟩ : o ∈ rs ∧ o.offset ≤ r.offset ∧ r.limit ≤ o.limit ∧ r.size ≤ o.size := by
    simpa [around] using ho
  refine ⟨o, mem_outermost_iff.2 ⟨hmem, fun q hq => ?_⟩, hoffset, hlimit, hsize⟩
  rw [Bool.eq_false_iff]
  intro hinside
  obtain ⟨hlt, hqo, hql⟩ := inside_iff.1 hinside
  have hlarger : q ∈ around := by
    simp only [around, Finset.mem_filter, List.mem_toFinset]
    exact ⟨hq, by omega, by omega, by omega⟩
  have hle := hlargest q hlarger
  omega

/-! ## What the walk drops -/

/-- What is dropped starts inside of the last register that was kept, unless it is the program counter. -/
theorem exists_last_of_dropped (hdrop : (last.any (r.offset < ·.limit) || pc == some r.name) = true)
    (hpc : pc ≠ some r.name) : ∃ l ∈ last, r.offset < l.limit := by
  have hany : last.any (r.offset < ·.limit) = true := by simpa [hpc] using hdrop
  simpa [Option.any_eq_true] using hany

theorem pc_ne_of_mem_walk (h : r ∈ walk pc last rs) : pc ≠ some r.name := by
  induction rs generalizing last with
  | nil => cases h
  | cons q rs ih =>
    unfold walk at h
    split at h
    · exact ih h
    · rename_i hkeep
      rcases List.mem_cons.1 h with rfl | h
      · rintro rfl
        simp at hkeep
      · exact ih h

/-- A register is kept, unless it is the program counter or starts inside of one that was kept before it. -/
theorem mem_walk_or (hsorted : (last.toList ++ rs).Pairwise fun r s => r.offset ≤ s.offset) (hr : r ∈ rs)
    (hpc : pc ≠ some r.name) :
    r ∈ walk pc last rs ∨ ∃ s ∈ last.toList ++ walk pc last rs, s.offset ≤ r.offset ∧ r.offset < s.limit := by
  induction rs generalizing last with
  | nil => cases hr
  | cons q rs ih =>
    unfold walk
    split
    · rename_i hdrop
      rcases List.mem_cons.1 hr with rfl | hr
      · obtain ⟨l, rfl, hlt⟩ := exists_last_of_dropped hdrop hpc
        rw [Option.toList_some, List.singleton_append, List.pairwise_cons] at hsorted
        exact .inr ⟨l, by simp, hsorted.1 r (List.mem_cons_self ..), hlt⟩
      · exact ih (hsorted.sublist (List.Sublist.append_left (List.sublist_cons_self q rs) _)) hr
    · have hrest : ([q] ++ rs).Pairwise fun r s => r.offset ≤ s.offset :=
        hsorted.sublist (List.sublist_append_right ..)
      rcases List.mem_cons.1 hr with rfl | hr
      · exact .inl (List.mem_cons_self ..)
      · rcases @ih (some q) hrest hr with hkept | ⟨s, hs, h⟩
        · exact .inl (List.mem_cons_of_mem _ hkept)
        · exact .inr ⟨s, List.mem_append_right _ hs, h⟩

/-! ## How many the walk keeps -/

/-- At most one of several registers that are apart from each other reaches over a position. -/
theorem length_le_one_of_reach {cls : RegClass} {i : Nat} (hapart : rs.Pairwise Register.Apart)
    (hreach : ∀ r ∈ rs, r.cls = cls ∧ r.offset < i ∧ i ≤ r.limit) : rs.length ≤ 1 := by
  match rs with
  | [] | [_] => simp
  | r :: s :: rs =>
    obtain ⟨hrc, hr, hr'⟩ := hreach r (by simp)
    obtain ⟨hsc, hs, hs'⟩ := hreach s (by simp)
    have hrs : r.Apart s := List.rel_of_pairwise_cons hapart (List.mem_cons_self ..)
    exact absurd hrs (Register.not_apart (hrc.trans hsc.symm) (by omega) (by omega))

/-- No choice of registers that are apart from each other is larger than what the walk keeps: of such a choice, at most
one register starts before the first that is kept has ended, and it can be exchanged for that one. -/
theorem length_le_walk {cls : RegClass} {ts : List Register} (hsorted : rs.Pairwise fun r s => r.offset ≤ s.offset)
    (hunnested : Unnested rs) (hfits : ∀ r ∈ rs, r.Fits) (hcls : ∀ r ∈ rs, r.cls = cls)
    (hts : ∀ t ∈ ts, t ∈ rs ∧ pc ≠ some t.name ∧ ∀ l ∈ last, l.limit ≤ t.offset) (hapart : ts.Pairwise Register.Apart) :
    ts.length ≤ (walk pc last rs).length := by
  induction rs generalizing last ts with
  | nil =>
    cases ts with
    | nil => exact Nat.le_refl _
    | cons t ts => cases (hts t (List.mem_cons_self ..)).1
  | cons q rs ih =>
    obtain ⟨hfirst, hsorted'⟩ := List.pairwise_cons.1 hsorted
    have hunnested' : Unnested rs := hunnested.subset (List.subset_cons_self q rs)
    have hfits' : ∀ r ∈ rs, r.Fits := fun r hr => hfits r (List.mem_cons_of_mem _ hr)
    have hcls' : ∀ r ∈ rs, r.cls = cls := fun r hr => hcls r (List.mem_cons_of_mem _ hr)
    unfold walk
    split
    · rename_i hdrop
      refine ih hsorted' hunnested' hfits' hcls' (fun t ht => ⟨?_, (hts t ht).2⟩) hapart
      obtain ⟨hmem, hpc, hlast⟩ := hts t ht
      refine (List.mem_cons.1 hmem).resolve_left ?_
      rintro rfl
      obtain ⟨l, hl, hlt⟩ := exists_last_of_dropped hdrop hpc
      have hle := hlast l hl
      omega
    · let late := ts.filter fun t => decide (q.limit ≤ t.offset)
      let early := ts.filter fun t => decide ¬ (decide (q.limit ≤ t.offset)) = true
      have hlate : late.length ≤ (walk pc (some q) rs).length := by
        refine ih hsorted' hunnested' hfits' hcls' (fun t ht => ?_) (hapart.filter _)
        obtain ⟨ht, hle⟩ := List.mem_filter.1 ht
        have hle : q.limit ≤ t.offset := of_decide_eq_true hle
        obtain ⟨hmem, hpc, -⟩ := hts t ht
        refine ⟨(List.mem_cons.1 hmem).resolve_left ?_, hpc, ?_⟩
        · rintro rfl
          have hlt := (hfits t (List.mem_cons_self ..)).offset_lt_limit
          omega
        · rintro _ ⟨⟩
          exact hle
      have hearly : early.length ≤ 1 := by
        refine @length_le_one_of_reach _ cls q.limit (hapart.filter _) fun t ht => ?_
        obtain ⟨ht, hlt⟩ := List.mem_filter.1 ht
        have hlt : t.offset < q.limit := by simpa using hlt
        have hmem := (hts t ht).1
        have hle : q.offset ≤ t.offset := by
          rcases List.mem_cons.1 hmem with rfl | hmem
          · exact Nat.le_refl _
          · exact hfirst t hmem
        exact ⟨hcls t hmem, hlt, hunnested.limit_le hfits (List.mem_cons_self ..) hmem hle⟩
      have hlength : ts.length = late.length + early.length := by
        rw [List.length_eq_countP_add_countP fun t => decide (q.limit ≤ t.offset), List.countP_eq_length_filter,
          List.countP_eq_length_filter]
      rw [List.length_cons]
      omega

/-! ## Which ranges the walk keeps -/

theorem walk_none_cons : walk none last (r :: rs) =
    if last.any (r.offset < ·.limit) then walk none last rs else r :: walk none (some r) rs := by
  have hname : ((none : Option String) == some r.name) = false := rfl
  rw [walk, hname, Bool.or_false]

/-- The program counter is passed over as if it were not in the list. -/
theorem walk_filter (pc : Option String) (last : Option Register) (rs : List Register) :
    walk pc last rs = walk none last (rs.filter fun r => pc != some r.name) := by
  induction rs generalizing last with
  | nil => rfl
  | cons q rs ih =>
    by_cases hpc : pc = some q.name
    · have hne : (pc != some q.name) = false := bne_eq_false_iff_eq.2 hpc
      have hbeq : (pc == some q.name) = true := beq_iff_eq.2 hpc
      rw [walk, hbeq, Bool.or_true, if_pos rfl, List.filter_cons, hne, if_neg Bool.false_ne_true, ih]
    · have hne : (pc != some q.name) = true := bne_iff_ne.2 hpc
      have hbeq : (pc == some q.name) = false := beq_eq_false_iff_ne.2 hpc
      rw [walk, hbeq, Bool.or_false, List.filter_cons, if_pos hne, walk_none_cons, ih, ih]

/-- Lists of registers with the same ranges in order are walked alike. -/
theorem map_range_walk {last' : Option Register} (h : rs.map Register.range = ss.map Register.range)
    (hlast : last.map Register.range = last'.map Register.range) :
    (walk none last rs).map Register.range = (walk none last' ss).map Register.range := by
  induction rs generalizing ss last last' with
  | nil =>
    cases ss with
    | nil => rfl
    | cons s ss => cases h
  | cons r rs ih =>
    cases ss with
    | nil => cases h
    | cons s ss =>
      obtain ⟨hrange, hrest⟩ : r.range = s.range ∧ rs.map Register.range = ss.map Register.range := by simpa using h
      have hoffset : r.offset = s.offset := congrArg (fun x => x.2.1) hrange
      have hblocked : last.any (r.offset < ·.limit) = last'.any (s.offset < ·.limit) := by
        cases last with
        | none =>
          cases last' with
          | none => rfl
          | some l' => cases hlast
        | some l =>
          cases last' with
          | none => cases hlast
          | some l' =>
            rw [Option.any_some, Option.any_some, hoffset, Register.limit_eq_of_range_eq (Option.some.inj hlast)]
      rw [walk_none_cons, walk_none_cons, hblocked]
      split
      · exact ih hrest hlast
      · rw [List.map_cons, List.map_cons, hrange]
        exact congrArg _ (ih hrest (congrArg some hrange))

end Binding
end SuperH
