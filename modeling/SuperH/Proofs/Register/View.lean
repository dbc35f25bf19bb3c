import SuperH.Proofs.Bits.Value
import SuperH.Proofs.Run.Contract
import SuperH.Register.File

/-!
# Registers as views

* `Register.Fits`, `Profile.Valid` : registers with bits below the highest position, and what validation establishes
  (`Profile.valid_of_validate`);
* `Register.Apart`, `Register.Holds` : registers without a common bit, and the positions of a register;
* `RegisterFile.Covers` : a register lies in the arena of its class, as the registers of the profile do (`covers_of_mem`), and
  still does after a write to any register; so no register is missing (`getBits_eq_none_iff`);
* `RegisterFile.content`, `RegisterFile.put` : the value of a register and its replacement, which `getBits` and `setBits`
  come down to (`getBits_eq`, `setBits_eq`);
* `content_put_self`, `content_put_of_apart`, `put_content` : a write shows in its register, in no register apart from
  it, and not at all if it writes what is there.
-/

namespace SuperH

/-! ## Valid profiles -/

/-- The register has bits and lies below the highest position. -/
structure Register.Fits (r : Register) : Prop where
  pos : 0 < r.size
  le : r.offset + r.size ≤ Profile.maxLimit

theorem Register.Fits.limit_eq {r : Register} (h : r.Fits) : r.limit = r.offset + r.size := by
  have h₁ := h.le
  have h₂ : Profile.maxLimit ≤ 2 ^ 32 - 1 := by decide
  exact Nat.min_eq_left (Nat.le_trans h₁ h₂)

/-- The registers of a profile fit and have names of their own. -/
structure Profile.Valid (p : Profile) : Prop where
  fits : ∀ r ∈ p.registers, r.Fits
  nodup : (p.registers.map (·.name)).Nodup

namespace Profile

variable {p : Profile}

theorem checkRegisters_eq_ok {seen : List String} {rs : List Register} (h : checkRegisters seen rs = .ok ()) :
    (∀ r ∈ rs, r.Fits) ∧ (rs.map (·.name)).Nodup ∧ ∀ r ∈ rs, r.name ∉ seen := by
  induction rs generalizing seen with
  | nil => exact ⟨nofun, List.nodup_nil, nofun⟩
  | cons r rs ih =>
    unfold checkRegisters at h
    split at h
    · cases h
    split at h
    · cases h
    split at h
    · cases h
    obtain ⟨hfits, hnodup, hseen⟩ := ih h
    have hr : r.Fits := ⟨by omega, by omega⟩
    refine ⟨?_, ?_, ?_⟩
    · exact List.forall_mem_cons.2 ⟨hr, hfits⟩
    · rw [List.map_cons, List.nodup_cons]
      refine ⟨fun hmem => ?_, hnodup⟩
      obtain ⟨s, hs, hname⟩ := List.mem_map.1 hmem
      exact hseen s hs (hname ▸ List.mem_cons_self ..)
    · refine List.forall_mem_cons.2 ⟨‹_›, fun s hs hmem => ?_⟩
      exact hseen s hs (List.mem_cons_of_mem _ hmem)

/-- A profile that passes validation is valid. -/
theorem valid_of_validate (h : p.validate = .ok ()) : p.Valid := by
  unfold validate at h
  cases hrs : checkRegisters [] p.registers with
  | error e =>
    rw [hrs] at h
    cases h
  | ok u =>
    obtain ⟨hfits, hnodup, -⟩ := checkRegisters_eq_ok hrs
    exact ⟨hfits, hnodup⟩

theorem mem_of_get? {name : String} {r : Register} (h : p.get? name = some r) : r ∈ p.registers ∧ r.name = name := by
  have hname := List.find?_some h
  exact ⟨List.mem_of_find?_eq_some h, by simpa using hname⟩

theorem get?_of_pcRegister? {r : Register} (h : p.pcRegister? = some r) : p.get? r.name = some r := by
  obtain ⟨name, -, hget⟩ := Option.bind_eq_some_iff.1 h
  obtain ⟨-, rfl⟩ := mem_of_get? hget
  exact hget

theorem Valid.fits_of_get? (hp : p.Valid) {name : String} {r : Register} (h : p.get? name = some r) : r.Fits :=
  hp.fits r (mem_of_get? h).1

end Profile

/-! ## Positions -/

/-- Two registers have no bit in common. -/
def Register.Apart (r s : Register) : Prop := r.overlaps s = false

theorem Register.Apart.symm {r s : Register} (h : r.Apart s) : s.Apart r := by
  have hc : (s.cls == r.cls) = (r.cls == s.cls) := Bool.beq_comm
  unfold Apart overlaps at *
  rw [hc, Bool.and_right_comm]
  exact h

/-- The position belongs to the register. -/
def Register.Holds (r : Register) (cls : RegClass) (i : Nat) : Prop :=
  r.cls = cls ∧ r.offset ≤ i ∧ i < r.offset + r.size

/-- Registers with a position in common are not apart. -/
theorem Register.Holds.not_apart {r s : Register} {cls : RegClass} {i : Nat} (hr : r.Fits) (hs : s.Fits)
    (h : r.Holds cls i) (h' : s.Holds cls i) : ¬ r.Apart s := by
  obtain ⟨rfl, hle, hlt⟩ := h
  obtain ⟨hcls, hle', hlt'⟩ := h'
  have h₁ : r.offset < s.offset + s.size := by omega
  have h₂ : s.offset < r.offset + r.size := by omega
  unfold Apart overlaps
  rw [hr.limit_eq, hs.limit_eq]
  simp [hcls, h₁, h₂]

/-- Registers that are not apart have a position in common. -/
theorem Register.exists_holds_of_not_apart {r s : Register} (hr : r.Fits) (hs : s.Fits) (h : ¬ r.Apart s) :
    ∃ cls i, r.Holds cls i ∧ s.Holds cls i := by
  have hoverlap : r.cls = s.cls ∧ r.offset < s.offset + s.size ∧ s.offset < r.offset + r.size := by
    unfold Apart overlaps at h
    rw [hr.limit_eq, hs.limit_eq] at h
    simpa using h
  obtain ⟨hcls, h₁, h₂⟩ := hoverlap
  have hrpos := hr.pos
  have hspos := hs.pos
  -- the position at which the later of the two starts
  refine ⟨s.cls, max r.offset s.offset, ⟨hcls, ?_, ?_⟩, rfl, ?_, ?_⟩
  · omega
  · omega
  · omega
  · omega

/-! ## Arenas -/

theorem Arena.withBits_bits (a : Arena) : a.withBits a.bits = a := by
  simp only [withBits, Limbs.lowBits_eq, Nat.mod_eq_of_lt a.bits_lt]

/-- Room that is made leaves the bits alone, and is clear. -/
theorem Arena.bits_grow (a : Arena) (length : Nat) : (a.grow length).bits = a.bits := by
  unfold grow
  split
  · rfl
  · rfl

theorem Arenas.bits_foldl_extend (rs : List Register) (arenas : Arenas) (i : Fin RegClass.count) :
    ((rs.foldl extend arenas).get i).bits = (arenas.get i).bits := by
  induction rs generalizing arenas with
  | nil => rfl
  | cons r rs ih =>
    rw [List.foldl_cons, ih, extend, get_set]
    split
    · subst ‹_ = i›
      exact Arena.bits_grow ..
    · rfl

/-! ## Contents -/

namespace RegisterFile

variable {regs : RegisterFile} {r s : Register} {v : Nat}

/-- The value of a register. -/
def content (regs : RegisterFile) (r : Register) : Nat := regs.arena r.cls >>> r.offset % 2 ^ r.size

/-- Replaces the bits of a register. -/
def put (regs : RegisterFile) (r : Register) (v : Nat) : RegisterFile :=
  regs.setArena r.cls (splice (regs.arena r.cls) r.offset r.size v)

@[simp] theorem profile_put : (regs.put r v).profile = regs.profile := rfl

theorem content_lt : regs.content r < 2 ^ r.size := Nat.mod_lt _ (Nat.two_pow_pos _)

theorem testBit_content (i : Nat) :
    (regs.content r).testBit i = (decide (i < r.size) && (regs.arena r.cls).testBit (r.offset + i)) := by
  rw [content, Nat.testBit_mod_two_pow, Nat.testBit_shiftRight]

theorem arena_zeros (p : Profile) (cls : RegClass) : (zeros p).arena cls = 0 := by
  refine (Arenas.bits_foldl_extend p.registers _ cls.index).trans ?_
  show (Vector.replicate RegClass.count Arena.empty)[cls.index.val].bits = 0
  rw [Vector.getElem_replicate]
  rfl

theorem arena_lt (cls : RegClass) : regs.arena cls < 2 ^ regs.length cls := (regs.arenas.get cls.index).bits_lt

theorem arena_setArena (cls d : RegClass) (a : Nat) :
    (regs.setArena cls a).arena d = if cls = d then a % 2 ^ regs.length d else regs.arena d := by
  unfold arena setArena length
  simp only [Arenas.get_set, RegClass.index_inj]
  split
  · subst ‹cls = d›
    exact Limbs.lowBits_eq ..
  · rfl

@[simp] theorem length_put (cls : RegClass) : (regs.put r v).length cls = regs.length cls :=
  Arenas.length_set_withBits ..

/-- Giving a class the bits that it has changes nothing. -/
theorem setArena_arena (cls : RegClass) : regs.setArena cls (regs.arena cls) = regs := by
  have harenas : regs.arenas.set cls.index ((regs.arenas.get cls.index).withBits (regs.arena cls)) = regs.arenas := by
    rw [arena, Arena.withBits_bits]
    exact Vector.set_getElem_self ..
  cases regs
  simp only [setArena, RegisterFile.mk.injEq, true_and]
  exact harenas

/-- The arena of the register's class reaches over all of its bits. -/
def Covers (regs : RegisterFile) (r : Register) : Prop := r.offset + r.size ≤ regs.length r.cls

/-- The arenas of a register file cover the registers of its profile. -/
theorem covers_of_mem (hp : regs.profile.Valid) (hr : r ∈ regs.profile.registers) : regs.Covers r := by
  rw [Covers, ← (hp.fits r hr).limit_eq]
  exact regs.covers r hr

theorem covers_of_get? (hp : regs.profile.Valid) {name : String} (hr : regs.profile.get? name = some r) : regs.Covers r :=
  covers_of_mem hp (Profile.mem_of_get? hr).1

@[simp] theorem covers_put : (regs.put r v).Covers s ↔ regs.Covers s := by rw [Covers, Covers, length_put]

/-- A bit of the arenas after a write: those of the register that lie in its arena are replaced. -/
theorem testBit_arena_put (hv : v < 2 ^ r.size) (cls : RegClass) (i : Nat) :
    ((regs.put r v).arena cls).testBit i =
      if r.cls = cls ∧ r.offset ≤ i ∧ i < r.offset + r.size then decide (i < regs.length cls) && v.testBit (i - r.offset)
      else (regs.arena cls).testBit i := by
  rw [put, arena_setArena]
  by_cases hc : r.cls = cls
  · subst hc
    rw [if_pos rfl, Nat.testBit_mod_two_pow, testBit_splice hv]
    by_cases hi : r.offset ≤ i ∧ i < r.offset + r.size
    · simp [hi]
    · -- past the length there was no bit before
      rw [if_neg hi, if_neg fun h => hi h.2, ← Nat.testBit_mod_two_pow, Nat.mod_eq_of_lt (arena_lt _)]
  · simp [hc]

/-- A write to a register that the arenas cover replaces its bits. -/
theorem testBit_put_of_holds (hc : regs.Covers r) (hv : v < 2 ^ r.size) {cls : RegClass} {i : Nat} (h : r.Holds cls i) :
    ((regs.put r v).arena cls).testBit i = v.testBit (i - r.offset) := by
  obtain ⟨rfl, hle, hlt⟩ := h
  have hi : i < regs.length r.cls := Nat.lt_of_lt_of_le hlt hc
  rw [testBit_arena_put hv, if_pos ⟨rfl, hle, hlt⟩, decide_eq_true hi, Bool.true_and]

theorem testBit_put_of_not_holds (hv : v < 2 ^ r.size) {cls : RegClass} {i : Nat} (h : ¬ r.Holds cls i) :
    ((regs.put r v).arena cls).testBit i = (regs.arena cls).testBit i := by
  rw [testBit_arena_put hv]
  exact if_neg h

/-- A bit at a position of a register is a bit of its content. -/
theorem testBit_arena_of_holds {cls : RegClass} {i : Nat} (h : r.Holds cls i) :
    (regs.arena cls).testBit i = (regs.content r).testBit (i - r.offset) := by
  obtain ⟨rfl, hle, hlt⟩ := h
  have h₁ : i - r.offset < r.size := by omega
  have h₂ : r.offset + (i - r.offset) = i := by omega
  rw [testBit_content, h₂, decide_eq_true h₁, Bool.true_and]

/-- A write shows in its register. -/
theorem content_put_self (hc : regs.Covers r) (hv : v < 2 ^ r.size) : (regs.put r v).content r = v := by
  apply Nat.eq_of_testBit_eq
  intro i
  rw [testBit_content]
  by_cases hi : i < r.size
  · have hholds : r.Holds r.cls (r.offset + i) := ⟨rfl, Nat.le_add_right .., Nat.add_lt_add_left hi _⟩
    rw [testBit_put_of_holds hc hv hholds, Nat.add_sub_cancel_left, decide_eq_true hi, Bool.true_and]
  · have hhigh : v.testBit i = false :=
      Nat.testBit_lt_two_pow (Nat.lt_of_lt_of_le hv (Nat.pow_le_pow_right (by decide) (Nat.le_of_not_lt hi)))
    simp [hi, hhigh]

/-- A write does not show in a register that has no bit in common with its own. -/
theorem content_put_of_apart (hr : r.Fits) (hs : s.Fits) (h : r.Apart s) (hv : v < 2 ^ s.size) :
    (regs.put s v).content r = regs.content r := by
  apply Nat.eq_of_testBit_eq
  intro i
  rw [testBit_content, testBit_content, testBit_arena_put hv]
  have h : ¬ (s.cls = r.cls ∧ r.offset < s.offset + s.size ∧ s.offset < r.offset + r.size) := by
    have h : r.overlaps s = false := h
    rw [Register.overlaps, hr.limit_eq, hs.limit_eq] at h
    rintro ⟨hc, h₁, h₂⟩
    simp [hc, h₁, h₂] at h
  by_cases hi : i < r.size
  · have hout : ¬ (s.cls = r.cls ∧ s.offset ≤ r.offset + i ∧ r.offset + i < s.offset + s.size) := by
      rintro ⟨hc, h₁, h₂⟩
      exact h ⟨hc, by omega, by omega⟩
    rw [if_neg hout]
  · simp [hi]

/-- Writing what a register holds changes nothing. -/
theorem put_content : regs.put r (regs.content r) = regs := by
  have harena : splice (regs.arena r.cls) r.offset r.size (regs.content r) = regs.arena r.cls := by
    apply Nat.eq_of_testBit_eq
    intro i
    rw [testBit_splice content_lt]
    split
    · have h₁ : i - r.offset < r.size := by omega
      have h₂ : r.offset + (i - r.offset) = i := by omega
      rw [testBit_content, h₂, decide_eq_true h₁, Bool.true_and]
    · rfl
  rw [put, harena, setArena_arena]

/-- A register of zeros and one of ones have no bit in common. -/
theorem apart_of_content (hr : r.Fits) (hs : s.Fits) (hzeros : regs.content r = 0)
    (hones : regs.content s = 2 ^ s.size - 1) : r.Apart s := by
  refine Classical.byContradiction fun hoverlap => ?_
  obtain ⟨cls, i, hrHolds, hsHolds⟩ := Register.exists_holds_of_not_apart hr hs hoverlap
  have hzero : (regs.arena cls).testBit i = false := by
    rw [testBit_arena_of_holds hrHolds, hzeros, Nat.zero_testBit]
  have hone : (regs.arena cls).testBit i = true := by
    have hlt : i - s.offset < s.size := by
      obtain ⟨-, h₁, h₂⟩ := hsHolds
      omega
    rw [testBit_arena_of_holds hsHolds, hones, Nat.testBit_two_pow_sub_one, decide_eq_true hlt]
  rw [hzero] at hone
  cases hone

/-! ## Access by name -/

theorem read_eq (h : r.Fits) (hc : regs.Covers r) :
    regs.read r = .ok (some (.ofNat r.size (regs.content r) h.pos)) := by
  have hw : r.limit - r.offset = r.size := by rw [h.limit_eq]; omega
  unfold read
  rw [if_pos (h.limit_eq.symm ▸ hc), hw, Bits.sized, dif_pos h.pos]
  refine congrArg (fun x => Except.ok (some x)) (Bits.ext_toNat rfl ?_)
  rw [Bits.toNat_ofNat, Bits.toNat_ofNat, content, Nat.mod_mod]

theorem write_eq (h : r.Fits) (hc : regs.Covers r) {x : Bits} (hx : x.width = r.size) :
    regs.write r x = .ok (some (regs.put r x.toNat)) := by
  have hw : r.limit - r.offset = r.size := by rw [h.limit_eq]; omega
  rw [write, if_pos (h.limit_eq.symm ▸ hc), hw, if_pos hx.symm, hx]
  rfl

/-- No register lies past its arena, whatever the profile: nothing is found only under a name that is not known. -/
theorem getBits_eq_none_iff {name : String} : regs.getBits name = .ok none ↔ regs.profile.get? name = none := by
  unfold getBits
  cases hget : regs.profile.get? name with
  | none => exact iff_of_true rfl rfl
  | some r =>
    have hcovers : r.limit ≤ regs.length r.cls := regs.covers r (Profile.mem_of_get? hget).1
    dsimp only
    rw [read, if_pos hcovers]
    refine iff_of_false (fun h => ?_) nofun
    -- the register is found, or has no bits, which is a fault
    generalize Bits.sized _ _ = found at h
    cases found with
    | ok x => cases h
    | error f => cases h

theorem getBits_eq (hp : regs.profile.Valid) {name : String} (hr : regs.profile.get? name = some r) :
    regs.getBits name = .ok (some (.ofNat r.size (regs.content r) (hp.fits_of_get? hr).pos)) := by
  unfold getBits
  rw [hr]
  exact read_eq (hp.fits_of_get? hr) (covers_of_get? hp hr)

theorem exists_getBits (hp : regs.profile.Valid) {name : String} (hr : regs.profile.get? name = some r) :
    ∃ v, regs.getBits name = .ok (some v) ∧ v.toNat = regs.content r := by
  refine ⟨_, getBits_eq hp hr, ?_⟩
  rw [Bits.toNat_ofNat, Nat.mod_eq_of_lt content_lt]

theorem setBits_eq (hp : regs.profile.Valid) {name : String} (hr : regs.profile.get? name = some r) {x : Bits}
    (hx : x.width = r.size) : setBits name x regs = .ok true (regs.put r x.toNat) := by
  unfold setBits
  rw [hr]
  dsimp only
  rw [if_pos hx.symm, write_eq (hp.fits_of_get? hr) (covers_of_get? hp hr) hx]

theorem set_eq (hp : regs.profile.Valid) {name : String} (hr : regs.profile.get? name = some r) (n : Nat) :
    set name n regs = .ok true (regs.put r (n % 2 ^ r.size)) := by
  have hpos := (hp.fits_of_get? hr).pos
  refine (bind_of_ok rfl).trans ?_
  rw [hr]
  dsimp only
  rw [dif_pos hpos, setBits_eq hp hr rfl, Bits.toNat_ofNat]

end RegisterFile
end SuperH
