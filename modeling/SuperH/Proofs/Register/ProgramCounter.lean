import SuperH.Proofs.Register.Walk

/-!
# Is the program counter bound?

The walk by offset passes over the program counter, and the choice of flags does not look for it.

* `Profile.exists_get?_pc` : the program counter of a validated profile is one of its registers;
* `Binding.pc_ne_of_mem_registers` : it is not among the wider registers that are bound;
* `Binding.derive_binds_pc_iff` : it is bound exactly if it is a flag and the first one at its position.
-/

namespace SuperH

namespace Profile

variable {p : Profile}

/-- The program counter of a validated profile names a register. -/
theorem exists_get?_pc (h : p.validate = .ok ()) {name : String} (hpc : p.pc = some name) : ∃ pc, p.get? name = some pc := by
  have hnames : name ∈ p.registers.map (·.name) := by
    unfold validate at h
    cases hrs : checkRegisters [] p.registers with
    | error e =>
      rw [hrs] at h
      cases h
    | ok u =>
      rw [hrs] at h
      have hcheck : p.checkPc = .ok () := h
      unfold checkPc at hcheck
      rw [hpc] at hcheck
      dsimp only at hcheck
      split at hcheck
      · assumption
      · cases hcheck
  obtain ⟨pc, hmem, rfl⟩ := List.mem_map.1 hnames
  exact ⟨pc, (valid_of_validate h).get?_of_mem hmem⟩

end Profile

namespace Binding

variable {p : Profile} {r : Register}

theorem pc_ne_of_mem_registers (h : r ∈ registers p) (hsize : r.size ≠ 1) : p.pc ≠ some r.name := by
  rw [mem_registers_iff, deriveClass_eq, List.mem_append] at h
  rcases h with h | h
  · exact absurd (size_of_mem_flags h) hsize
  · exact pc_ne_of_mem_walk h

/-- The program counter is bound exactly if it is a register of one bit and no other one before it is the same bit. -/
theorem derive_binds_pc_iff (h : p.validate = .ok ()) {name : String} (hpc : p.pc = some name) :
    ∃ pc, p.get? name = some pc ∧
      (name ∈ (derive p).items.map (·.name) ↔ pc.size = 1 ∧ p.registers.find? pc.sameFlag = some pc) := by
  have hp := Profile.valid_of_validate h
  obtain ⟨pc, hget⟩ := Profile.exists_get?_pc h hpc
  obtain ⟨hmem, rfl⟩ := Profile.mem_of_get? hget
  have hbound : pc.name ∈ (derive p).items.map (·.name) ↔ pc ∈ registers p := by
    rw [derive_items, List.map_map, List.mem_map]
    constructor
    · rintro ⟨r, hr, hname⟩
      exact List.inj_on_of_nodup_map hp.nodup (mem_of_mem_registers hr) hmem hname ▸ hr
    · exact fun hr => ⟨pc, hr, rfl⟩
  refine ⟨pc, hget, hbound.trans ⟨fun hr => ?_, fun ⟨hsize, hfirst⟩ => ?_⟩⟩
  · have hsize : pc.size = 1 := by
      by_contra hwide
      exact pc_ne_of_mem_registers hr hwide hpc
    have hself : pc.sameFlag pc := by simp [Register.sameFlag, hsize]
    exact ⟨hsize, (mem_registers_iff_of_sameFlag hself).1 hr⟩
  · have hself : pc.sameFlag pc := by simp [Register.sameFlag, hsize]
    exact (mem_registers_iff_of_sameFlag hself).2 hfirst

/-- A program counter between two flags, a part of which is a register of its own, and one of a single bit that has another
name before it. Neither is bound. -/
theorem derive_binds_pc_iff_apart :
    let p : Profile := ⟨[⟨"z", 7, 1, .gpr⟩, ⟨"pc", 8, 16, .gpr⟩, ⟨"n", 24, 1, .gpr⟩, ⟨"half", 8, 8, .gpr⟩], some "pc"⟩
    let q : Profile := ⟨[⟨"phase", 0, 1, .gpr⟩, ⟨"pc", 0, 1, .gpr⟩], some "pc"⟩
    (p.validate = .ok () ∧ "pc" ∉ (derive p).items.map (·.name)) ∧
      q.validate = .ok () ∧ "pc" ∉ (derive q).items.map (·.name) := by
  intro p q
  have hp : p.validate = .ok () := by decide
  have hq : q.validate = .ok () := by decide
  refine ⟨⟨hp, fun hbound => ?_⟩, hq, fun hbound => ?_⟩
  · obtain ⟨pc, hget, hiff⟩ := derive_binds_pc_iff hp rfl
    cases hget
    exact absurd (hiff.1 hbound).1 (by decide)
  · obtain ⟨pc, hget, hiff⟩ := derive_binds_pc_iff hq rfl
    cases hget
    exact absurd (hiff.1 hbound).2 (by decide)

/-- A program counter of one bit is bound as a flag. -/
theorem pc_bound_as_flag :
    let p : Profile := ⟨[⟨"pc", 0, 1, .gpr⟩], some "pc"⟩
    p.validate = .ok () ∧ p.pc = some "pc" ∧ "pc" ∈ (derive p).items.map (·.name) := by
  intro p
  exact ⟨by decide, rfl, by decide⟩

end Binding
end SuperH
