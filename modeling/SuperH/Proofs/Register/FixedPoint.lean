import Mathlib.Data.List.Pairwise
import SuperH.Proofs.Register.Candidate
import SuperH.Proofs.Register.ProgramCounter
import SuperH.Proofs.Register.Selection

/-!
# Deriving again

A derived binding is made of registers that are apart from each other, and of such registers every one is bound.

* `Binding.mem_registers_of_apart` : of registers that are apart from each other all are bound, less the program counter;
* `Register.Precedes.asymm` : the order of bound registers is strict, so that it determines their list;
* `Profile.keep`, `derive_fixed` : binding the names that were derived, and deriving from the registers that were bound,
  yields the binding again.
-/

namespace SuperH

/-! ## The order of bound registers -/

/-- Of two members of a list without duplicates, only one comes before the other. -/
theorem idxOf_lt_of_sublist {α : Type} [DecidableEq α] {a b : α} {xs : List α} (hnodup : xs.Nodup)
    (h : [a, b].Sublist xs) : xs.idxOf a < xs.idxOf b := by
  have hordered : xs.Pairwise fun a b => xs.idxOf a < xs.idxOf b := by
    rw [List.pairwise_iff_getElem]
    intro i j hi hj hij
    rwa [hnodup.idxOf_getElem i hi, hnodup.idxOf_getElem j hj]
  exact List.rel_of_pairwise_cons (hordered.sublist h) (List.mem_singleton_self b)

namespace Register

variable {p q : Profile} {r s : Register}

theorem Precedes.asymm (hnodup : p.registers.Nodup) (h : r.Precedes p s) : ¬ s.Precedes p r := by
  intro h'
  cases h with
  | cls hcls =>
    have hne := RegClass.ne_of_sublist hcls
    cases h' with
    | cls hcls' =>
      have hall : RegClass.all.Nodup := by decide
      exact Nat.lt_asymm (idxOf_lt_of_sublist hall hcls) (idxOf_lt_of_sublist hall hcls')
    | flags heq | flagFirst heq | offset heq => exact hne heq.symm
  | flags heq hr hs horder =>
    cases h' with
    | cls hcls => exact RegClass.ne_of_sublist hcls heq.symm
    | flags _ _ _ horder' =>
      exact Nat.lt_asymm (idxOf_lt_of_sublist hnodup horder) (idxOf_lt_of_sublist hnodup horder')
    | flagFirst _ _ hr' => exact hr' hr
    | offset _ hs' => exact hs' hs
  | flagFirst heq hr hs =>
    cases h' with
    | cls hcls => exact RegClass.ne_of_sublist hcls heq.symm
    | flags _ hs' => exact hs hs'
    | flagFirst _ hs' => exact hs hs'
    | offset _ _ hr' => exact hr' hr
  | offset heq hr hs hlt =>
    cases h' with
    | cls hcls => exact RegClass.ne_of_sublist hcls heq.symm
    | flags _ _ hr' => exact hr hr'
    | flagFirst _ hs' => exact hs hs'
    | offset _ _ _ hlt' => exact Nat.lt_asymm hlt hlt'

/-- Registers that are left out of a profile do not matter to the order of the others. -/
theorem Precedes.of_sublist (hsub : q.registers.Sublist p.registers) (h : r.Precedes q s) : r.Precedes p s := by
  cases h with
  | cls h => exact .cls h
  | flags heq hr hs h => exact .flags heq hr hs (h.trans hsub)
  | flagFirst heq hr hs => exact .flagFirst heq hr hs
  | offset heq hr hs hlt => exact .offset heq hr hs hlt

end Register

namespace Binding

variable {p q : Profile} {r : Register}

theorem registers_precedes (hp : p.Valid) : (registers p).Pairwise (Register.Precedes p) :=
  registers_pairwise (deriveClass_precedes hp) fun _ _ => .cls

/-- What is bound and the order of the profile determine the list of bound registers. -/
theorem registers_eq (hp : p.Valid) (hq : q.Valid) (hsub : q.registers.Sublist p.registers)
    (h : ∀ r, r ∈ registers q ↔ r ∈ registers p) : registers q = registers p := by
  have hnodup : (registers p).Nodup := .of_map _ (registers_nodup hp)
  have hnodup' : (registers q).Nodup := .of_map _ (registers_nodup hq)
  refine List.Perm.eq_of_pairwise (fun r s _ _ hrs hsr => ?_) ((registers_precedes hq).imp (·.of_sublist hsub))
    (registers_precedes hp) ((List.perm_ext_iff_of_nodup hnodup' hnodup).2 h)
  exact absurd hsr (hrs.asymm (.of_map _ hp.nodup))

/-! ## Registers apart from each other -/

theorem mem_registers_of_apart (hp : p.Valid) (hapart : p.registers.Pairwise Register.Apart) (hr : r ∈ p.registers)
    (hpc : r.size ≠ 1 → p.pc ≠ some r.name) : r ∈ registers p := by
  have hsame : ∀ s ∈ p.registers, ¬ s.Apart r → s = r := by
    intro s hs hoverlap
    have hsymm : Std.Symm Register.Apart := ⟨fun _ _ => Register.Apart.symm⟩
    by_contra hne
    exact hoverlap (hapart.forall hs hr hne)
  have hfits := hp.fits r hr
  by_cases hsize : r.size = 1
  · obtain ⟨f, hf, hbound, hrange⟩ := exists_bound_flag hp hr hsize
    obtain ⟨hcls, hoffset, -⟩ : f.cls = r.cls ∧ f.offset = r.offset ∧ f.size = r.size := by
      simpa [Register.range] using hrange
    have hlimit := Register.limit_eq_of_range_eq hrange
    have hlt := hfits.offset_lt_limit
    obtain rfl := hsame f hf (Register.not_apart hcls (by omega) (by omega))
    exact (bound_mem_derive_iff hp hr).1 hbound
  · -- nothing lies around it or in it, so it reaches the walk, where nothing blocks it
    have hcand : p.Candidate r.cls r := by
      refine ⟨hr, rfl, hsize, fun h => hpc hsize ((hp.pc_eq_iff hr).1 h), fun f hf hflag hin => ?_, fun o ho hlt _ hin => ?_⟩
      · obtain rfl := hsame f hf (hin.not_apart (hp.fits f hf))
        exact hsize hflag
      · obtain rfl := hsame o ho fun h => hin.not_apart hfits h.symm
        exact Nat.lt_irrefl _ hlt
    rw [mem_registers_iff, deriveClass_eq, List.mem_append]
    right
    obtain hkept | ⟨s, hs, hle, hlt⟩ := @mem_walk_or _ none _ _ (sortByOffset_pairwise _)
      (mem_sortByOffset.2 ((candidate_iff hp).1 hcand).1) (hpc hsize)
    · exact hkept
    · have hscand := mem_wide_candidate hp hs
      have hrl := hfits.offset_lt_limit
      obtain rfl := hsame s hscand.mem (Register.not_apart hscand.cls (by omega) hlt)
      exact hs

end Binding

/-! ## The registers that were bound -/

namespace Profile

/-- The profile with those of its registers alone that a binding names. -/
def keep (p : Profile) (b : Binding) : Profile :=
  { p with registers := p.registers.filter fun r => (b.get? r.name).isSome }

theorem keep_sublist (p : Profile) (b : Binding) : (p.keep b).registers.Sublist p.registers := List.filter_sublist

theorem Valid.of_sublist {p q : Profile} (hp : p.Valid) (h : q.registers.Sublist p.registers) : q.Valid :=
  ⟨fun r hr => hp.fits r (h.subset hr), hp.nodup.sublist (h.map _)⟩

end Profile

namespace Binding

variable {p : Profile} {r : Register}

theorem isSome_get? {b : Binding} {name : String} : (b.get? name).isSome ↔ name ∈ b.items.map (·.name) := by
  rw [get?, List.find?_isSome, List.mem_map]
  simp only [beq_iff_eq]

theorem mem_keep_derive (hp : p.Valid) : r ∈ (p.keep (derive p)).registers ↔ r ∈ registers p := by
  rw [Profile.keep, List.mem_filter, isSome_get?, derive_items, List.map_map, List.mem_map]
  constructor
  · rintro ⟨hmem, s, hs, hname⟩
    exact List.inj_on_of_nodup_map hp.nodup (mem_of_mem_registers hs) hmem hname ▸ hs
  · intro h
    exact ⟨mem_of_mem_registers h, r, h, rfl⟩

theorem keep_derive_apart (hp : p.Valid) : (p.keep (derive p)).registers.Pairwise Register.Apart := by
  have hnodup : (p.keep (derive p)).registers.Nodup := (List.Nodup.of_map _ hp.nodup).sublist (p.keep_sublist _)
  have hperm : (registers p).Perm (p.keep (derive p)).registers :=
    (List.perm_ext_iff_of_nodup (.of_map _ (registers_nodup hp)) hnodup).2 fun _ => (mem_keep_derive hp).symm
  exact hperm.pairwise (registers_apart hp) Register.Apart.symm

/-- Binding the names of a derived binding in their order yields the binding again, and so does deriving from the registers
alone that it names. -/
theorem derive_fixed (h : p.validate = .ok ()) :
    exactly p ((derive p).items.map (·.name)) = .ok (derive p) ∧ derive (p.keep (derive p)) = derive p := by
  have hp := Profile.valid_of_validate h
  have hsub := p.keep_sublist (derive p)
  have hq := hp.of_sublist hsub
  constructor
  · refine exactly_eq_ok_iff.2 ⟨registers p, derive_selects hp, ?_⟩
    rw [derive_items, List.map_map]
    rfl
  · have hregisters : registers (p.keep (derive p)) = registers p := by
      refine registers_eq hp hq hsub fun r => ⟨fun hr => ?_, fun hr => ?_⟩
      · exact (mem_keep_derive hp).1 (mem_of_mem_registers hr)
      · have hpc : r.size ≠ 1 → p.pc ≠ some r.name := pc_ne_of_mem_registers hr
        exact mem_registers_of_apart hq (keep_derive_apart hp) ((mem_keep_derive hp).2 hr) hpc
    have hitems : (derive (p.keep (derive p))).items = (derive p).items := by
      rw [derive_items, derive_items, hregisters]
    exact congrArg Binding.mk hitems

/-- Five of nine registers are kept: two flags of one class, and three registers of another that are listed in another order
than that of their offsets. -/
theorem derive_fixed_overlapping :
    let p : Profile := ⟨[⟨"d", 48, 16, .gpr⟩, ⟨"zf", 6, 1, .flg⟩, ⟨"pc", 32, 16, .gpr⟩, ⟨"a", 0, 16, .gpr⟩, ⟨"b", 8, 16, .gpr⟩,
      ⟨"cf", 0, 1, .flg⟩, ⟨"carry", 0, 1, .flg⟩, ⟨"flags", 0, 32, .flg⟩, ⟨"c", 16, 16, .gpr⟩], some "pc"⟩
    p.validate = .ok () ∧ (derive p).items = [⟨"a", 16⟩, ⟨"c", 16⟩, ⟨"d", 16⟩, ⟨"zf", 1⟩, ⟨"cf", 1⟩] ∧
      (p.keep (derive p)).registers.map (·.name) = ["d", "zf", "a", "cf", "c"] ∧
      exactly p ["a", "c", "d", "zf", "cf"] = .ok (derive p) ∧ derive (p.keep (derive p)) = derive p := by
  intro p
  have hp : p.validate = .ok () := by decide
  have hitems : (derive p).items = [⟨"a", 16⟩, ⟨"c", 16⟩, ⟨"d", 16⟩, ⟨"zf", 1⟩, ⟨"cf", 1⟩] := by decide
  obtain ⟨hexactly, hderive⟩ := derive_fixed hp
  rw [hitems] at hexactly
  exact ⟨hp, hitems, by decide, hexactly, hderive⟩

end Binding
end SuperH
