import SuperH.Proofs.Register.Derive

/-!
# Bindings of a profile's registers

* `Binding.Selects` : a binding names registers of a profile, each at most once;
* `derive_selects`, `exactly_eq_ok_iff` : the derived binding does, and the explicit ones are all that do.
-/

namespace SuperH.Binding

/-- The binding is that of known registers with names of their own. -/
structure Selects (p : Profile) (rs : List Register) (b : Binding) : Prop where
  items : b.items = rs.map Register.bound
  known : ∀ r ∈ rs, p.get? r.name = some r
  nodup : (rs.map (·.name)).Nodup

variable {p : Profile} {rs : List Register} {b : Binding} {names : List String}

theorem derive_selects (hp : p.Valid) : (derive p).Selects p (registers p) where
  items := derive_items p
  known := registers_known hp
  nodup := registers_nodup hp

theorem Selects.fits (h : b.Selects p rs) (hp : p.Valid) : ∀ r ∈ rs, r.Fits :=
  fun r hr => hp.fits_of_get? (h.known r hr)

theorem Selects.mem_items_iff (h : b.Selects p rs) {x : Bound} : x ∈ b.items ↔ ∃ r ∈ rs, r.bound = x := by
  rw [h.items, List.mem_map]

theorem Selects.bound_mem (h : b.Selects p rs) {r : Register} (hr : r ∈ rs) : r.bound ∈ b.items :=
  h.mem_items_iff.2 ⟨r, hr, rfl⟩

theorem Selects.items_nodup (h : b.Selects p rs) : (b.items.map (·.name)).Nodup := by
  rw [h.items, List.map_map]
  exact h.nodup

theorem Selects.size_pos (h : b.Selects p rs) (hp : p.Valid) : ∀ x ∈ b.items, 0 < x.size := by
  intro x hx
  obtain ⟨r, hr, rfl⟩ := h.mem_items_iff.1 hx
  exact (h.fits hp r hr).pos

theorem any_name_bound {bound : List Bound} {name : String} :
    bound.any (·.name == name) = true ↔ name ∈ bound.map (·.name) := by
  simp only [List.any_eq_true, List.mem_map, beq_iff_eq]

theorem bindNames_eq_ok {bound items : List Bound} (h : bindNames p bound names = .ok items) :
    ∃ rs : List Register, items = bound ++ rs.map Register.bound ∧ rs.map (·.name) = names ∧
      (∀ r ∈ rs, p.get? r.name = some r) ∧ names.Nodup ∧ ∀ n ∈ names, n ∉ bound.map (·.name) := by
  induction names generalizing bound with
  | nil =>
    cases h
    exact ⟨[], by simp, rfl, nofun, List.nodup_nil, nofun⟩
  | cons name names ih =>
    unfold bindNames at h
    cases hget : p.get? name with
    | none =>
      rw [hget] at h
      cases h
    | some r =>
      rw [hget] at h
      dsimp only at h
      split at h
      · cases h
      · rename_i hfresh
        rw [any_name_bound] at hfresh
        obtain ⟨rs, hitems, hnames, hknown, hnodup, hnew⟩ := ih h
        have hname : r.name = name := (Profile.mem_of_get? hget).2
        have hr : p.get? r.name = some r := by rw [hname, hget]
        refine ⟨r :: rs, ?_, ?_, ?_, ?_, ?_⟩
        · rw [hitems, List.append_assoc]
          rfl
        · rw [List.map_cons, hname, hnames]
        · exact List.forall_mem_cons.2 ⟨hr, hknown⟩
        · rw [List.nodup_cons]
          refine ⟨fun hmem => hnew name hmem ?_, hnodup⟩
          rw [List.map_append, List.mem_append]
          exact Or.inr (List.mem_singleton.2 hname.symm)
        · refine List.forall_mem_cons.2 ⟨hfresh, fun n hn hmem => hnew n hn ?_⟩
          rw [List.map_append, List.mem_append]
          exact Or.inl hmem

theorem bindNames_of_known {bound : List Bound} (hknown : ∀ r ∈ rs, p.get? r.name = some r)
    (hnodup : (rs.map (·.name)).Nodup) (hnew : ∀ r ∈ rs, r.name ∉ bound.map (·.name)) :
    bindNames p bound (rs.map (·.name)) = .ok (bound ++ rs.map Register.bound) := by
  induction rs generalizing bound with
  | nil => simp [bindNames]
  | cons r rs ih =>
    rw [List.map_cons, List.nodup_cons] at hnodup
    have hr : p.get? r.name = some r := hknown r (List.mem_cons_self ..)
    have hfresh : ¬ bound.any (·.name == r.name) = true := by
      rw [any_name_bound]
      exact hnew r (List.mem_cons_self ..)
    rw [List.map_cons, bindNames, hr]
    dsimp only
    rw [if_neg hfresh, ih (fun q hq => hknown q (List.mem_cons_of_mem _ hq)) hnodup.2, List.append_assoc]
    · rfl
    · intro q hq hmem
      rw [List.map_append, List.mem_append] at hmem
      rcases hmem with hmem | hmem
      · exact hnew q (List.mem_cons_of_mem _ hq) hmem
      · have hname : q.name = r.name := List.mem_singleton.1 hmem
        exact hnodup.1 (hname ▸ List.mem_map_of_mem hq)

/-- An explicit binding is made of any list of names that are known and distinct, and of no other list. -/
theorem exactly_eq_ok_iff : exactly p names = .ok b ↔ ∃ rs, b.Selects p rs ∧ rs.map (·.name) = names := by
  have hbind : exactly p names = (bindNames p [] names).map Binding.mk := by
    unfold exactly
    cases bindNames p [] names <;> rfl
  rw [hbind]
  constructor
  · intro h
    cases hitems : bindNames p [] names with
    | error e =>
      rw [hitems] at h
      cases h
    | ok items =>
      rw [hitems] at h
      cases h
      obtain ⟨rs, hrs, hnames, hknown, hnodup, -⟩ := bindNames_eq_ok hitems
      exact ⟨rs, ⟨hrs, hknown, hnames ▸ hnodup⟩, hnames⟩
  · rintro ⟨rs, h, rfl⟩
    rw [bindNames_of_known h.known h.nodup (fun _ _ => List.not_mem_nil), List.nil_append, ← h.items]
    rfl

end SuperH.Binding
