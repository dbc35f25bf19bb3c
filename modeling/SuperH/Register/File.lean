import SuperH.Bits.Basic
import SuperH.Register.Profile

/-!
# The register file

One arena of bits for each class of a profile, long enough for every register of the class. A register is a view of its bit
range, so a write to one register shows in every other register that overlaps it.

* `Arena` : so many bits and no others; `Arena.grow` makes room at the end;
* `Profile.arenas` : the arenas that the registers of a profile need, which cover every one of them (`limit_le_arenas`);
* `splice arena offset width v` : the arena with `v` in the range (`testBit_splice`);
* `RegisterFile` : a profile and arenas that cover its registers;
* `getBits`, `setBits` : a register's content; `get`, `set` : its low 64 bits;
* `pc`, `setPc` : the same of the program counter.
-/

namespace SuperH

/-! ## Arenas -/

/-- The bits of a class, from position zero up to a length. -/
structure Arena where
  length : Nat
  /-- the bits as a number, the lowest position first -/
  bits : Nat
  bits_lt : bits < 2 ^ length
  deriving DecidableEq

namespace Arena

def empty : Arena := ⟨0, 0, by decide⟩

/-- Adds clear bits at the end of an arena that is shorter than `length`. -/
def grow (a : Arena) (length : Nat) : Arena :=
  if h : a.length < length then
    ⟨length, a.bits, Nat.lt_of_lt_of_le a.bits_lt (Nat.pow_le_pow_right (by decide) (Nat.le_of_lt h))⟩
  else a

theorem le_length_grow (a : Arena) (length : Nat) : length ≤ (a.grow length).length := by
  unfold grow
  split
  · exact Nat.le_refl _
  · exact Nat.le_of_not_lt ‹_›

theorem length_le_length_grow (a : Arena) (length : Nat) : a.length ≤ (a.grow length).length := by
  unfold grow
  split
  · exact Nat.le_of_lt ‹_›
  · exact Nat.le_refl _

/-- An arena of the same length with other bits, of which those past the length are dropped. -/
def withBits (a : Arena) (bits : Nat) : Arena where
  length := a.length
  bits := Limbs.lowBits a.length bits
  bits_lt := Limbs.lowBits_eq a.length bits ▸ Nat.mod_lt _ (Nat.two_pow_pos _)

end Arena

/-- An arena for each class, in the fixed order. -/
abbrev Arenas : Type := Vector Arena RegClass.count

namespace Arenas

theorem get_set (arenas : Arenas) (cls : RegClass) (a : Arena) (i : Fin RegClass.count) :
    (arenas.set cls.index a).get i = if cls.index = i then a else arenas.get i := by
  show (arenas.set cls.index a)[i.val] = _
  rw [Vector.getElem_set]
  simp only [Fin.ext_iff]
  rfl

/-- Other bits in an arena leave its length alone. -/
theorem length_set_withBits (arenas : Arenas) (cls : RegClass) (bits : Nat) (i : Fin RegClass.count) :
    ((arenas.set cls.index ((arenas.get cls.index).withBits bits)).get i).length = (arenas.get i).length := by
  rw [get_set]
  split
  · subst ‹_ = i›
    rfl
  · rfl

/-- Makes room for a register. -/
def extend (arenas : Arenas) (r : Register) : Arenas :=
  arenas.set r.cls.index ((arenas.get r.cls.index).grow r.limit)

theorem length_le_extend (arenas : Arenas) (r : Register) (i : Fin RegClass.count) :
    (arenas.get i).length ≤ ((arenas.extend r).get i).length := by
  rw [extend, get_set]
  split
  · subst ‹_ = i›
    exact Arena.length_le_length_grow ..
  · exact Nat.le_refl _

theorem length_le_foldl_extend (rs : List Register) (arenas : Arenas) (i : Fin RegClass.count) :
    (arenas.get i).length ≤ ((rs.foldl extend arenas).get i).length := by
  induction rs generalizing arenas with
  | nil => exact Nat.le_refl _
  | cons r rs ih => exact Nat.le_trans (arenas.length_le_extend r i) (ih (arenas.extend r))

/-- No arena loses the room that was made for an earlier register. -/
theorem limit_le_foldl_extend {rs : List Register} {r : Register} (h : r ∈ rs) (arenas : Arenas) :
    r.limit ≤ ((rs.foldl extend arenas).get r.cls.index).length := by
  induction rs generalizing arenas with
  | nil => cases h
  | cons s rs ih =>
    rcases List.mem_cons.1 h with rfl | h
    · refine Nat.le_trans ?_ (length_le_foldl_extend rs (arenas.extend r) r.cls.index)
      rw [extend, get_set, if_pos rfl]
      exact Arena.le_length_grow ..
    · exact ih h (arenas.extend s)

end Arenas

/-- The arenas of a profile's registers, all of their bits clear. A class without registers has an empty one. -/
def Profile.arenas (profile : Profile) : Arenas :=
  profile.registers.foldl Arenas.extend (Vector.replicate _ .empty)

theorem Profile.limit_le_arenas {profile : Profile} {r : Register} (h : r ∈ profile.registers) :
    r.limit ≤ (profile.arenas.get r.cls.index).length := Arenas.limit_le_foldl_extend h _

/-- The content of the registers of a profile. -/
structure RegisterFile where
  profile : Profile
  arenas : Arenas
  /-- every register lies in the arena of its class -/
  covers : ∀ r ∈ profile.registers, r.limit ≤ (arenas.get r.cls.index).length
  deriving DecidableEq

/-- The arena with the bits from `offset` up to `offset + width` replaced by those of `v`. -/
def splice (arena offset width v : Nat) : Nat :=
  Limbs.lowBits offset arena ||| v <<< offset ||| (arena >>> (offset + width)) <<< (offset + width)

theorem testBit_splice {arena offset width v : Nat} (h : v < 2 ^ width) (i : Nat) :
    (splice arena offset width v).testBit i =
      if offset ≤ i ∧ i < offset + width then v.testBit (i - offset) else arena.testBit i := by
  have high : ∀ j, width ≤ j → v.testBit j = false := fun j hj =>
    Nat.testBit_lt_two_pow (Nat.lt_of_lt_of_le h (Nat.pow_le_pow_right (by decide) hj))
  simp only [splice, Limbs.lowBits_eq, Nat.testBit_or, Nat.testBit_mod_two_pow, Nat.testBit_shiftLeft,
    Nat.testBit_shiftRight]
  by_cases h₁ : i < offset
  · have h₂ : ¬ offset ≤ i := by omega
    have h₃ : ¬ offset + width ≤ i := by omega
    simp [h₁, h₂, h₃]
  · by_cases h₂ : i < offset + width
    · have h₃ : offset ≤ i := by omega
      have h₄ : ¬ offset + width ≤ i := by omega
      simp [h₁, h₂, h₃, h₄]
    · have h₃ : offset ≤ i := by omega
      have h₄ : offset + width ≤ i := by omega
      simp [h₁, h₂, h₃, h₄, high (i - offset) (by omega)]

namespace RegisterFile

/-- The registers of a profile, all zero. -/
def zeros (profile : Profile) : RegisterFile := ⟨profile, profile.arenas, fun _ => Profile.limit_le_arenas⟩

def length (regs : RegisterFile) (cls : RegClass) : Nat := (regs.arenas.get cls.index).length

def arena (regs : RegisterFile) (cls : RegClass) : Nat := (regs.arenas.get cls.index).bits

/-- Replaces the bits of a class; those past the length of its arena are dropped. -/
def setArena (regs : RegisterFile) (cls : RegClass) (bits : Nat) : RegisterFile where
  profile := regs.profile
  arenas := regs.arenas.set cls.index ((regs.arenas.get cls.index).withBits bits)
  covers r hr := by
    rw [Arenas.length_set_withBits]
    exact regs.covers r hr

/-- The bits of a register, if they lie in the arena of its class. -/
def read (regs : RegisterFile) (r : Register) : Except Fault (Option Bits) :=
  if r.limit ≤ regs.length r.cls then
    some <$> Bits.sized (r.limit - r.offset) fun h => Bits.ofNat (r.limit - r.offset) (regs.arena r.cls >>> r.offset) h
  else return none

/-- The content of the register of that name. -/
def getBits (regs : RegisterFile) (name : String) : Except Fault (Option Bits) :=
  match regs.profile.get? name with
  | some r => regs.read r
  | none => return none

/-- The low 64 bits of the register of that name. -/
def get (regs : RegisterFile) (name : String) : Except Fault (Option Nat) :=
  return (← regs.getBits name).map Bits.low64

/-- Replaces the content of a register that lies in the arena of its class by a value of its size. -/
def write (regs : RegisterFile) (r : Register) (v : Bits) : Except Fault (Option RegisterFile) :=
  if r.limit ≤ regs.length r.cls then
    if r.limit - r.offset = v.width then
      return some (regs.setArena r.cls (splice (regs.arena r.cls) r.offset v.width v.toNat))
    else .error .outOfRange
  else return none

/-- Replaces the content of the register of that name; answers whether there is one of the value's
width. -/
def setBits (name : String) (v : Bits) : EStateM Fault RegisterFile Bool := fun regs =>
  match regs.profile.get? name with
  | none => .ok false regs
  | some r =>
    if r.size = v.width then
      match regs.write r v with
      | .ok (some regs) => .ok true regs
      | .ok none => .ok false regs
      | .error f => .error f regs
    else .ok false regs

/-- Writes the low bits of a number; answers whether there is a register of that name. -/
def set (name : String) (value : Nat) : EStateM Fault RegisterFile Bool := do
  match (← EStateM.get).profile.get? name with
  | none => return false
  | some r =>
    if h : 0 < r.size then setBits name (Bits.ofNat r.size value h) else throw .zeroWidth

/-- The low 64 bits of the program counter. -/
def pc (regs : RegisterFile) : Except Fault (Option Nat) :=
  match regs.profile.pc with
  | some name => regs.get name
  | none => return none

/-- Writes the low bits of a number to the program counter; answers whether there is one. -/
def setPc (value : Nat) : EStateM Fault RegisterFile Bool := do
  match (← EStateM.get).profile.pc with
  | some name => set name value
  | none => return false

end RegisterFile
end SuperH
