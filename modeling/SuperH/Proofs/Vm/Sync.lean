import SuperH.Proofs.Register.View
import SuperH.Proofs.Run.Contract
import SuperH.Proofs.Vm.Sort
import SuperH.Vm.Sync

/-!
# Synchronisation in closed form

For a valid profile and a binding of its registers, both directions of the synchronisation are one equation:

* `Sync.fromPhysical_eq` : loading sets the program counter and each bound variable to its register's content;
* `Sync.toPhysical_eq` : writing back puts the program counter and each bound variable into its register;
* `RegisterFile.content_putAll` : what a register holds after many writes to registers apart from each other;
* `Sync.fromPhysical_keeps` : what loading keeps, also when it fails, for any profile and any binding.
-/

namespace SuperH

/-! ## Several assignments -/

namespace Env

/-- The variables with new values for several of them. -/
def assignAll (env : Env) (values : List (String × Value)) : Env :=
  values.foldl (fun env g => env.assign g.1 g.2) env

theorem names_assign (env : Env) (name : String) (value : Value) :
    (env.assign name value).map (·.1) = env.map (·.1) := by
  induction env with
  | nil => rfl
  | cons g env ih =>
    obtain ⟨n, old⟩ := g
    by_cases hn : n = name
    · simp [assign, hn]
    · simp [assign, hn, ih]

theorem names_assignAll (env : Env) (values : List (String × Value)) :
    (env.assignAll values).map (·.1) = env.map (·.1) := by
  induction values generalizing env with
  | nil => rfl
  | cons g values ih => exact (ih _).trans (names_assign env g.1 g.2)

theorem lookup_assignAll {values : List (String × Value)} (hnodup : (values.map (·.1)).Nodup) (env : Env)
    (name : String) :
    (env.assignAll values).lookup name = match values.lookup name with
      | some value => (env.lookup name).map fun _ => value
      | none => env.lookup name := by
  induction values generalizing env with
  | nil => rfl
  | cons g values ih =>
    obtain ⟨n, value⟩ := g
    rw [List.map_cons, List.nodup_cons] at hnodup
    show (assignAll (env.assign n value) values).lookup name = _
    rw [ih hnodup.2, lookup_assign]
    by_cases hn : name = n
    · subst hn
      rw [lookup_eq_none_iff.2 hnodup.1, List.lookup_cons_self, if_pos rfl]
    · have hbeq : (name == n) = false := by simpa using hn
      rw [List.lookup_cons, hbeq, if_neg hn]

theorem assign_self {env : Env} {name : String} {value : Value} (h : env.lookup name = some value) :
    env.assign name value = env := by
  induction env with
  | nil => rfl
  | cons g env ih =>
    obtain ⟨n, old⟩ := g
    by_cases hn : n = name
    · subst hn
      rw [List.lookup_cons_self] at h
      cases h
      simp [assign]
    · have hne : (name == n) = false := by simpa using Ne.symm hn
      rw [List.lookup_cons, hne] at h
      simp [assign, hn, ih h]

/-- Assigning what the variables hold changes nothing. -/
theorem assignAll_self {env : Env} {values : List (String × Value)} (h : ∀ g ∈ values, env.lookup g.1 = some g.2) :
    env.assignAll values = env := by
  induction values with
  | nil => rfl
  | cons g values ih =>
    show assignAll (env.assign g.1 g.2) values = env
    rw [assign_self (h g (List.mem_cons_self ..))]
    exact ih fun q hq => h q (List.mem_cons_of_mem _ hq)

theorem lookup_of_mem {env : Env} (hnodup : (env.map (·.1)).Nodup) {g : String × Value} (h : g ∈ env) :
    env.lookup g.1 = some g.2 := by
  induction env with
  | nil => cases h
  | cons g' env ih =>
    rw [List.map_cons, List.nodup_cons] at hnodup
    rcases List.mem_cons.1 h with rfl | h
    · exact List.lookup_cons_self
    · have hne : (g.1 == g'.1) = false := by
        rw [beq_eq_false_iff_ne]
        exact fun he => hnodup.1 (he ▸ List.mem_map_of_mem h)
      rw [List.lookup_cons, hne]
      exact ih hnodup.2 h

/-- Variables that are made for a list are found under the names of its entries. -/
theorem lookup_map {α : Type} {xs : List α} {name : α → String} (value : α → Value) (hnodup : (xs.map name).Nodup) {x : α}
    (hx : x ∈ xs) : (xs.map fun x => (name x, value x)).lookup (name x) = some (value x) := by
  have hnames : ((xs.map fun x => (name x, value x)).map (·.1)).Nodup := by
    rw [List.map_map]
    exact hnodup
  have hmem : (name x, value x) ∈ xs.map fun x => (name x, value x) := List.mem_map_of_mem hx
  exact lookup_of_mem hnames hmem

/-- Assigning every variable replaces all of them. -/
theorem assignAll_eq {env : Env} {values : List (String × Value)} (hnames : env.map (·.1) = values.map (·.1))
    (hnodup : (values.map (·.1)).Nodup) : env.assignAll values = values := by
  refine ext_of_nodup ((names_assignAll env values).trans hnames) ?_ fun n hn => ?_
  · rw [names_assignAll, hnames]
    exact hnodup
  · rw [names_assignAll, hnames] at hn
    obtain ⟨g, hg, rfl⟩ := List.mem_map.1 hn
    have hold : env.lookup g.1 ≠ none := by
      rw [Ne, lookup_eq_none_iff, hnames]
      exact not_not_intro hn
    obtain ⟨old, hold⟩ := Option.ne_none_iff_exists'.1 hold
    rw [lookup_assignAll hnodup, lookup_of_mem hnodup hg, hold]
    rfl

end Env

/-! ## Registers and their variables -/

variable {regs : RegisterFile} {rs : List Register} {vm : Vm}

/-- The value that a register's variable is loaded with. -/
def RegisterFile.value (regs : RegisterFile) (r : Register) : Value :=
  if r.size = 1 then .bool (decide (regs.content r = 1))
  else if h : 0 < r.size then .bits (.ofNat r.size (regs.content r) h) else .bool false

namespace RegisterFile

theorem value_sort {r : Register} (h : r.Fits) : (regs.value r).sort = r.bound.sort := by
  show _ = if r.size = 1 then ValueSort.bool else ValueSort.bits r.size
  unfold value
  by_cases h₁ : r.size = 1
  · rw [if_pos h₁, if_pos h₁]
    rfl
  · rw [if_neg h₁, dif_pos h.pos, if_neg h₁]
    rfl

theorem toNat_value {r : Register} (h : r.Fits) : (regs.value r).toBits.toNat = regs.content r := by
  have hlt : regs.content r < 2 ^ r.size := content_lt
  unfold value
  by_cases h₁ : r.size = 1
  · rw [if_pos h₁, Value.toBits, Bits.toNat_ofBool]
    rw [h₁] at hlt
    by_cases h₂ : regs.content r = 1
    · rw [h₂]
      rfl
    · have h₀ : regs.content r = 0 := by omega
      rw [h₀]
      rfl
  · rw [if_neg h₁, dif_pos h.pos, Value.toBits, Bits.toNat_ofNat, Nat.mod_eq_of_lt hlt]

end RegisterFile

/-- The registers are a profile's, and an interpreter has a variable of the right sort for each. -/
structure Sync.Linked (regs : RegisterFile) (rs : List Register) (vm : Vm) : Prop where
  valid : regs.profile.Valid
  known : ∀ r ∈ rs, regs.profile.get? r.name = some r
  binding : vm.binding = some (rs.map fun r => ⟨r.bound, true⟩)
  sorts : ∀ r ∈ rs, (vm.get? r.name).map Value.sort = some r.bound.sort
  pcBits : 0 < vm.config.pcBits

theorem Sync.Linked.covers {regs : RegisterFile} {rs : List Register} {vm : Vm} (h : Linked regs rs vm) :
    ∀ r ∈ rs, regs.Covers r := fun r hr => RegisterFile.covers_of_get? h.valid (h.known r hr)

namespace Sync

/-! ## Loading -/

theorem fit_eq (x : Bits) {width : Nat} (h : 0 < width) : fit x width = .ok (x.setWidth width h) := dif_pos h

theorem boundContent_eq (hp : regs.profile.Valid) {r : Register} (hr : regs.profile.get? r.name = some r) :
    boundContent regs r.bound = .ok (.ofNat r.size (regs.content r) (hp.fits_of_get? hr).pos) := by
  have hpos := (hp.fits_of_get? hr).pos
  unfold boundContent
  show (regs.getBits r.name >>= _) = _
  rw [RegisterFile.getBits_eq hp hr]
  exact (fit_eq _ hpos).trans (congrArg Except.ok Bits.setWidth_self)

/-- A variable of its register's sort is loaded with the register's content. -/
theorem loaded_eq {r : Register} (h : r.Fits) {old : Value} (hs : old.sort = r.bound.sort) :
    loaded (some old) (.ofNat r.size (regs.content r) h.pos) = regs.value r := by
  change _ = if r.size = 1 then ValueSort.bool else ValueSort.bits r.size at hs
  have hlt : regs.content r < 2 ^ r.size := RegisterFile.content_lt
  unfold RegisterFile.value
  by_cases h₁ : r.size = 1
  · rw [if_pos h₁] at hs ⊢
    obtain ⟨b, rfl⟩ := Value.eq_bool_of_sort hs
    rw [loaded, Bits.lsb_eq, Bits.toNat_ofNat, Nat.mod_eq_of_lt hlt]
    rw [h₁, Nat.pow_one] at hlt
    rw [Nat.mod_eq_of_lt hlt]
  · rw [if_neg h₁] at hs ⊢
    obtain ⟨v, rfl, -⟩ := Value.eq_bits_of_sort hs
    rw [dif_pos h.pos]
    rfl

theorem loadBound_eq (hp : regs.profile.Valid) (hrs : ∀ r ∈ rs, regs.profile.get? r.name = some r)
    (hs : ∀ r ∈ rs, (vm.get? r.name).map Value.sort = some r.bound.sort) :
    loadBound regs (rs.map fun r => ⟨r.bound, true⟩) vm =
      .ok [] { vm with globals := vm.globals.assignAll (rs.map fun r => (r.name, regs.value r)) } := by
  induction rs generalizing vm with
  | nil => rfl
  | cons r rs ih =>
    have hr := hrs r (List.mem_cons_self ..)
    have hfits := hp.fits_of_get? hr
    obtain ⟨old, hold, hsort⟩ := Option.map_eq_some_iff.1 (hs r (List.mem_cons_self ..))
    show ((Failure.ofFault (boundContent regs r.bound) : Load Bits) >>= fun v =>
      (modify fun vm => vm.replace r.name (loaded (vm.get? r.name) v)) >>= fun _ =>
      loadBound regs (rs.map fun r => ⟨r.bound, true⟩)) vm = _
    rw [boundContent_eq hp hr]
    show loadBound regs _ (vm.replace r.name (loaded (vm.get? r.name) _)) = _
    rw [hold, loaded_eq hfits hsort]
    refine ih (fun q hq => hrs q (List.mem_cons_of_mem _ hq)) fun q hq => ?_
    -- the loaded value has the sort of the old one
    rw [Vm.get?_replace]
    split
    · have hq' := hs q (List.mem_cons_of_mem _ hq)
      rw [‹q.name = r.name›, hold] at hq'
      rw [hold, Option.map_some, Option.map_some, RegisterFile.value_sort hfits, ← hsort]
      exact hq'
    · exact hs q (List.mem_cons_of_mem _ hq)

theorem loadPc_eq (hp : regs.profile.Valid) {r : Register} (hr : regs.profile.pcRegister? = some r)
    (hpc : 0 < vm.config.pcBits) :
    loadPc regs vm = .ok () { vm with pc := .ofNat vm.config.pcBits (regs.content r) hpc } := by
  obtain ⟨name, hname, hr⟩ := Option.bind_eq_some_iff.1 hr
  unfold loadPc
  rw [hname]
  show ((Failure.ofFault (regs.getBits name) : Load (Option Bits)) >>= _) vm = _
  rw [RegisterFile.getBits_eq hp hr]
  show ((Failure.ofFault (fit _ vm.config.pcBits) : Load Bits) >>= fun pc => set { vm with pc }) vm = _
  rw [fit_eq _ hpc]
  have hcut : (Bits.ofNat r.size (regs.content r) (hp.fits_of_get? hr).pos).setWidth vm.config.pcBits hpc =
      .ofNat vm.config.pcBits (regs.content r) hpc := by
    refine Bits.ext_toNat (by rfl) ?_
    rw [Bits.toNat_setWidth, Bits.toNat_ofNat, Bits.toNat_ofNat, Nat.mod_eq_of_lt RegisterFile.content_lt]
  rw [hcut]
  rfl

theorem fromPhysical_of_ok {vm' vm'' : Vm} {bound : List BoundVar} (hpc : loadPc regs vm = .ok () vm')
    (hb : vm'.binding = some bound) (hload : loadBound regs bound vm' = .ok [] vm'') :
    fromPhysical regs vm = .ok () vm'' := by
  unfold fromPhysical
  rw [bind_of_ok hpc]
  refine (bind_of_ok rfl).trans ?_
  rw [hb]
  exact bind_of_ok hload

/-- Loading sets the program counter and every bound variable to the content of its register. -/
theorem fromPhysical_eq (h : Linked regs rs vm) {r : Register} (hr : regs.profile.pcRegister? = some r) :
    fromPhysical regs vm = .ok () { vm with
      pc := .ofNat vm.config.pcBits (regs.content r) h.pcBits
      globals := vm.globals.assignAll (rs.map fun r => (r.name, regs.value r)) } :=
  fromPhysical_of_ok (loadPc_eq h.valid hr h.pcBits) h.binding (loadBound_eq h.valid h.known h.sorts)

/-! ## Writing back -/

/-- The number that a variable holds; a variable that does not exist holds zero. -/
def number (vm : Vm) (name : String) : Nat := ((vm.get? name).map fun x => x.toBits.toNat).getD 0

/-- The registers with the variables of an interpreter written to them. -/
def putAll (vm : Vm) (rs : List Register) (regs : RegisterFile) : RegisterFile :=
  rs.foldl (fun regs r => regs.put r (number vm r.name)) regs

theorem width_of_sort {r : Register} {x : Value} (hs : x.sort = r.bound.sort) : x.toBits.width = r.size := by
  change _ = if r.size = 1 then ValueSort.bool else ValueSort.bits r.size at hs
  by_cases h₁ : r.size = 1
  · rw [if_pos h₁] at hs
    obtain ⟨b, rfl⟩ := Value.eq_bool_of_sort hs
    exact h₁.symm
  · rw [if_neg h₁] at hs
    obtain ⟨v, rfl, hv⟩ := Value.eq_bits_of_sort hs
    exact hv

theorem number_eq {name : String} {x : Value} (h : vm.get? name = some x) : number vm name = x.toBits.toNat := by
  rw [number, h]
  rfl

theorem number_lt {r : Register} (hs : (vm.get? r.name).map Value.sort = some r.bound.sort) :
    number vm r.name < 2 ^ r.size := by
  obtain ⟨x, hx, hsort⟩ := Option.map_eq_some_iff.1 hs
  rw [number_eq hx, ← width_of_sort hsort]
  exact Bits.toNat_lt _

theorem writeBound_eq (hp : regs.profile.Valid) {r : Register} (hr : regs.profile.get? r.name = some r)
    (hs : (vm.get? r.name).map Value.sort = some r.bound.sort) :
    writeBound vm ⟨r.bound, true⟩ regs = .ok true (regs.put r (number vm r.name)) := by
  obtain ⟨x, hx, hsort⟩ := Option.map_eq_some_iff.1 hs
  have hw : x.toBits.width = r.size := width_of_sort hsort
  have hpos := (hp.fits_of_get? hr).pos
  have hr' : regs.profile.get? r.bound.name = some r := hr
  have hx' : vm.get? r.bound.name = some x := hx
  refine (bind_of_ok rfl).trans ?_
  rw [hr', if_pos rfl, hx']
  dsimp only
  have hfit : fit x.toBits r.size = .ok x.toBits := by
    rw [fit_eq _ hpos]
    exact congrArg Except.ok (Bits.ext_toNat hw.symm (by
      rw [Bits.toNat_setWidth, ← hw, Nat.mod_eq_of_lt (Bits.toNat_lt _)]))
  rw [hfit]
  show (RegisterFile.setBits r.name x.toBits >>= fun written => pure (x.width == r.size && written)) regs = _
  rw [bind_of_ok (RegisterFile.setBits_eq hp hr hw), number_eq hx]
  have hwidth : x.width = r.size := by
    rw [← hw]
    cases x <;> rfl
  rw [hwidth, BEq.rfl, Bool.and_true]
  rfl

theorem writeAllBound_eq (hp : regs.profile.Valid) (hrs : ∀ r ∈ rs, regs.profile.get? r.name = some r)
    (hs : ∀ r ∈ rs, (vm.get? r.name).map Value.sort = some r.bound.sort) :
    writeAllBound vm (rs.map fun r => ⟨r.bound, true⟩) regs = .ok true (putAll vm rs regs) := by
  induction rs generalizing regs with
  | nil => rfl
  | cons r rs ih =>
    have hfirst := writeBound_eq hp (hrs r (List.mem_cons_self ..)) (hs r (List.mem_cons_self ..))
    have hrest : writeAllBound vm (rs.map fun r => ⟨r.bound, true⟩) (regs.put r (number vm r.name)) = _ :=
      ih hp (fun q hq => hrs q (List.mem_cons_of_mem _ hq)) fun q hq => hs q (List.mem_cons_of_mem _ hq)
    exact (bind_of_ok hfirst).trans (bind_of_ok hrest)

theorem writePc_eq (hp : regs.profile.Valid) {r : Register} (hr : regs.profile.pcRegister? = some r) :
    writePc vm regs = .ok (r.size == vm.pc.width) (regs.put r (vm.pc.toNat % 2 ^ r.size)) := by
  obtain ⟨name, -, hget⟩ := Option.bind_eq_some_iff.1 hr
  obtain ⟨-, rfl⟩ := Profile.mem_of_get? hget
  have hpos := (hp.fits_of_get? hget).pos
  refine (bind_of_ok rfl).trans ?_
  rw [hr]
  dsimp only
  rw [fit_eq _ hpos]
  show (RegisterFile.setBits r.name (vm.pc.setWidth r.size hpos) >>= _) regs = _
  rw [bind_of_ok (RegisterFile.setBits_eq hp hget rfl), Bits.toNat_setWidth, Bool.and_true]
  rfl

/-- Writing back puts the program counter and every bound variable into its register. -/
theorem toPhysical_eq (h : Linked regs rs vm) {r : Register} (hr : regs.profile.pcRegister? = some r) :
    toPhysical vm regs =
      .ok (r.size == vm.pc.width) (putAll vm rs (regs.put r (vm.pc.toNat % 2 ^ r.size))) := by
  have hrest : writeAllBound vm (rs.map fun r => ⟨r.bound, true⟩) (regs.put r (vm.pc.toNat % 2 ^ r.size)) = _ :=
    writeAllBound_eq h.valid h.known h.sorts
  unfold toPhysical
  rw [bind_of_ok (writePc_eq h.valid hr), h.binding]
  dsimp only
  rw [bind_of_ok hrest, Bool.and_true]
  rfl

/-! ## What the registers hold afterwards -/

@[simp] theorem profile_putAll : (putAll vm rs regs).profile = regs.profile := by
  induction rs generalizing regs with
  | nil => rfl
  | cons r rs ih => exact ih

/-- A register apart from all that are written keeps its content. -/
theorem content_putAll_of_apart {s : Register} (hs : s.Fits) (hfits : ∀ r ∈ rs, r.Fits)
    (hlt : ∀ r ∈ rs, number vm r.name < 2 ^ r.size) (h : ∀ r ∈ rs, s.Apart r) :
    (putAll vm rs regs).content s = regs.content s := by
  induction rs generalizing regs with
  | nil => rfl
  | cons r rs ih =>
    have hmem : r ∈ r :: rs := List.mem_cons_self ..
    show (putAll vm rs (regs.put r (number vm r.name))).content s = _
    rw [ih (fun q hq => hfits q (List.mem_cons_of_mem _ hq)) (fun q hq => hlt q (List.mem_cons_of_mem _ hq))
      fun q hq => h q (List.mem_cons_of_mem _ hq)]
    exact RegisterFile.content_put_of_apart hs (hfits r hmem) (h r hmem) (hlt r hmem)

/-- Each of several registers apart from each other holds what was written to it. -/
theorem content_putAll (hfits : ∀ r ∈ rs, r.Fits) (hcovers : ∀ r ∈ rs, regs.Covers r)
    (hlt : ∀ r ∈ rs, number vm r.name < 2 ^ r.size) (hapart : rs.Pairwise Register.Apart) {r : Register} (hr : r ∈ rs) :
    (putAll vm rs regs).content r = number vm r.name := by
  induction rs generalizing regs with
  | nil => cases hr
  | cons s rs ih =>
    rw [List.pairwise_cons] at hapart
    have hfits' : ∀ q ∈ rs, q.Fits := fun q hq => hfits q (List.mem_cons_of_mem _ hq)
    have hlt' : ∀ q ∈ rs, number vm q.name < 2 ^ q.size := fun q hq => hlt q (List.mem_cons_of_mem _ hq)
    show (putAll vm rs (regs.put s (number vm s.name))).content r = _
    rcases List.mem_cons.1 hr with rfl | hr
    · rw [content_putAll_of_apart (hfits r (List.mem_cons_self ..)) hfits' hlt' hapart.1]
      exact RegisterFile.content_put_self (hcovers r (List.mem_cons_self ..)) (hlt r (List.mem_cons_self ..))
    · exact ih hfits' (fun q hq => RegisterFile.covers_put.2 (hcovers q (List.mem_cons_of_mem _ hq))) hlt' hapart.2 hr

/-- Writing what the registers hold changes nothing. -/
theorem putAll_eq_self (h : ∀ r ∈ rs, number vm r.name = regs.content r) : putAll vm rs regs = regs := by
  induction rs with
  | nil => rfl
  | cons r rs ih =>
    show putAll vm rs (regs.put r (number vm r.name)) = regs
    rw [h r (List.mem_cons_self ..), RegisterFile.put_content]
    exact ih fun q hq => h q (List.mem_cons_of_mem _ hq)

/-! ## What loading keeps -/

variable {p : Vm → Prop}

theorem width_of_fit {v x : Bits} {width : Nat} (h : fit v width = .ok x) : x.width = width := by
  by_cases hpos : 0 < width
  · rw [fit_eq v hpos] at h
    cases h
    rfl
  · rw [fit, Bits.sized, dif_neg hpos] at h
    cases h

theorem width_of_boundContent {b : Bound} {v : Bits} (h : boundContent regs b = .ok v) : v.width = b.size := by
  unfold boundContent at h
  cases hread : regs.getBits b.name with
  | error f =>
    rw [hread] at h
    cases h
  | ok content =>
    rw [hread] at h
    cases content with
    | some x => exact width_of_fit h
    | none =>
      change blank b.size = _ at h
      by_cases hpos : 0 < b.size
      · rw [blank, Bits.sized, dif_pos hpos] at h
        cases h
        rfl
      · rw [blank, Bits.sized, dif_neg hpos] at h
        cases h

/-- A loaded variable keeps its sort: the value fits the register, and the variable has the sort of the register. -/
theorem sort_loaded {b : Bound} {old : Value} {v : Bits} (hs : old.sort = b.sort) (hv : v.width = b.size) :
    (loaded (some old) v).sort = old.sort := by
  cases old with
  | bool c => rfl
  | bits w =>
    rw [hs, Bound.sort]
    split
    · rw [Bound.sort, if_pos ‹_›] at hs
      cases hs
    · exact congrArg ValueSort.bits hv

theorem loadPc_keeps (hpc : ∀ {vm : Vm} {target : Bits} (h : 0 < vm.config.pcBits), p vm →
    p { vm with pc := target.setWidth vm.config.pcBits h }) : Keeps p (loadPc regs) := by
  unfold loadPc
  split
  · exact Keeps.pure
  · refine Keeps.bind Keeps.ofFault fun v => ?_
    split
    · exact Keeps.pure
    · rename_i v
      intro vm hp
      show Satisfies _ _ (((Failure.ofFault (fit v vm.config.pcBits) : Load Bits) >>= fun pc => set { vm with pc }) vm)
      by_cases hpos : 0 < vm.config.pcBits
      · rw [fit_eq v hpos]
        exact hpc hpos hp
      · rw [fit, Bits.sized, dif_neg hpos]
        exact hp

theorem loadBound_keeps {bs : List BoundVar} (hload : ∀ {vm : Vm} {b : BoundVar} {v : Bits}, vm.binding = some bs →
      b ∈ bs → b.resolved = true → v.width = b.register.size → p vm →
      p (vm.replace b.register.name (loaded (vm.get? b.register.name) v))) {cs : List BoundVar} (hcs : cs ⊆ bs) :
    Keeps (fun vm => vm.binding = some bs ∧ p vm) (loadBound regs cs) := by
  induction cs with
  | nil => exact Keeps.pure
  | cons b cs ih =>
    have hrest := ih fun c hc => hcs (List.mem_cons_of_mem _ hc)
    rw [loadBound]
    split
    · intro vm hvm
      show Satisfies _ _ (((Failure.ofFault (boundContent regs b.register) : Load Bits) >>= fun v =>
        (modify fun vm => vm.replace b.register.name (loaded (vm.get? b.register.name) v)) >>= fun _ =>
        loadBound regs cs) vm)
      cases hcontent : boundContent regs b.register with
      | error f => exact hvm
      | ok v =>
        refine hrest _ ⟨hvm.1, ?_⟩
        exact hload hvm.1 (hcs (List.mem_cons_self ..)) ‹_› (width_of_boundContent hcontent) hvm.2
    · exact Keeps.bind hrest fun names => Keeps.pure

/-- Loading sets the program counter, and each resolved variable of the binding to what fits its register. -/
theorem fromPhysical_keeps (hpc : ∀ {vm : Vm} {target : Bits} (h : 0 < vm.config.pcBits), p vm →
      p { vm with pc := target.setWidth vm.config.pcBits h })
    (hload : ∀ {vm : Vm} {bs : List BoundVar} {b : BoundVar} {v : Bits}, vm.binding = some bs → b ∈ bs →
      b.resolved = true → v.width = b.register.size → p vm →
      p (vm.replace b.register.name (loaded (vm.get? b.register.name) v))) : Keeps p (fromPhysical regs) := by
  have hget : Meets p (get : Load Vm) (fun seen vm => seen.binding = vm.binding ∧ p vm) (fun _ => p) :=
    fun _ hp => ⟨rfl, hp⟩
  refine Keeps.bind (loadPc_keeps hpc) fun _ => hget.bind fun seen => ?_
  cases hseen : seen.binding with
  | none => exact fun _ hvm => hvm.2
  | some bs =>
    have hbound : Keeps _ (loadBound regs bs) := loadBound_keeps hload (List.Subset.refl bs)
    have hrest : Keeps (fun vm => some bs = vm.binding ∧ p vm) (do
        let names ← loadBound regs bs
        if !names.isEmpty then throw (.error (.unboundVariables names)) : Load Unit) := by
      simp only [eq_comm (a := some bs)]
      exact Keeps.bind hbound fun names => Keeps.ite Keeps.throw Keeps.pure
    exact hrest.mono (fun _ hvm => hvm) (fun _ _ hvm => hvm.2) fun _ _ hvm => hvm.2

end Sync
end SuperH
