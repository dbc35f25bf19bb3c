import SuperH.Proofs.Vm.Operation

/-!
# Set-ups that fail

* `Binding.OfProfile` : the bindings of valid profiles, derived or explicit;
* `Vm.declare` : an interpreter with new variables for registers;
* `Vm.setupBinding_of_fresh`, `Vm.setupBinding_of_taken`, `Vm.setupBinding_of_bound` : the three outcomes of a set-up;
* `Vm.setUp_stops` : a set-up that fails leaves the variables of the registers before the first one whose name is taken.
-/

namespace SuperH

/-- The binding is made of registers of a valid profile. -/
def Binding.OfProfile (b : Binding) : Prop :=
  ∃ p : Profile, p.validate = .ok () ∧ (b = .derive p ∨ ∃ names, Binding.exactly p names = .ok b)

namespace Binding.OfProfile

variable {b : Binding}

theorem exists_selects (h : b.OfProfile) : ∃ p rs, p.Valid ∧ b.Selects p rs := by
  obtain ⟨p, hp, hb⟩ := h
  have hvalid := Profile.valid_of_validate hp
  rcases hb with rfl | ⟨names, hnames⟩
  · exact ⟨p, _, hvalid, derive_selects hvalid⟩
  · obtain ⟨rs, hrs, -⟩ := exactly_eq_ok_iff.1 hnames
    exact ⟨p, rs, hvalid, hrs⟩

theorem nodup (h : b.OfProfile) : (b.items.map (·.name)).Nodup := by
  obtain ⟨p, rs, -, hrs⟩ := h.exists_selects
  exact hrs.items_nodup

theorem pos (h : b.OfProfile) : ∀ x ∈ b.items, 0 < x.size := by
  obtain ⟨p, rs, hvalid, hrs⟩ := h.exists_selects
  exact hrs.size_pos hvalid

end Binding.OfProfile

namespace Vm

variable {vm : Vm} {b : Binding} {bs cs before after : List Bound} {x : Bound} {name : String}

/-! ## Variables before a name that is taken -/

/-- The interpreter with a new variable for each of the registers. -/
def declare (vm : Vm) (bs : List Bound) : Vm := { vm with globals := vm.globals ++ bs.map fun b => (b.name, b.blank) }

@[simp] theorem declare_nil : vm.declare [] = vm := by
  show { vm with globals := vm.globals ++ [] } = vm
  rw [List.append_nil]

theorem declare_eq_self_iff : vm.declare bs = vm ↔ bs = [] := by
  constructor
  · intro h
    have hglobals : vm.globals ++ bs.map (fun b => (b.name, b.blank)) = vm.globals := congrArg Vm.globals h
    exact List.map_eq_nil_iff.1 (List.append_right_eq_self.1 hglobals)
  · rintro rfl
    exact declare_nil

/-- A variable is there if it was or was made. -/
theorem get?_declare_eq_none : (vm.declare bs).get? name = none ↔ vm.get? name = none ∧ name ∉ bs.map (·.name) := by
  have hmade : (bs.map fun b => (b.name, b.blank)).lookup name = none ↔ name ∉ bs.map (·.name) := by
    rw [Env.lookup_eq_none_iff, List.map_map]
    rfl
  show (vm.globals ++ bs.map fun b => (b.name, b.blank)).lookup name = none ↔ vm.globals.lookup name = none ∧ _
  rw [List.lookup_append, Option.or_eq_none_iff, hmade]

theorem addGlobal_of_taken (h : vm.get? name ≠ none) (value : Value) :
    addGlobal name value vm = .error (.error (.duplicateVariable name)) vm := by
  show (if (vm.get? name).isSome then throw (.error (.duplicateVariable name)) else _ : VmM Nat) vm = _
  rw [if_pos (Option.isSome_iff_ne_none.2 h)]
  rfl

theorem addBound_append : addBound (bs ++ cs) = addBound bs >>= fun _ => addBound cs := by
  induction bs with
  | nil => exact (pure_bind () fun _ => addBound cs).symm
  | cons b bs ih =>
    show (Failure.ofFault (initial b) >>= fun value => addGlobal b.name value >>= fun _ => addBound (bs ++ cs)) =
      (Failure.ofFault (initial b) >>= fun value => addGlobal b.name value >>= fun _ => addBound bs) >>= fun _ => addBound cs
    rw [ih]
    simp only [bind_assoc]

theorem addBound_of_taken (hpos : 0 < x.size) (h : vm.get? x.name ≠ none) :
    addBound (x :: bs) vm = .error (.error (.duplicateVariable x.name)) vm := by
  show ((Failure.ofFault (initial x) : VmM Value) >>= fun value => addGlobal x.name value >>= fun _ => addBound bs) vm = _
  rw [initial_eq hpos]
  exact (bind_of_ok rfl).trans (bind_of_error (addGlobal_of_taken h x.blank))

/-- Of registers that cannot all get a variable there is a first one whose name is taken. -/
theorem exists_first_taken (h : ¬ ∀ x ∈ bs, vm.get? x.name = none) : ∃ before x after,
    bs = before ++ x :: after ∧ (∀ y ∈ before, vm.get? y.name = none) ∧ vm.get? x.name ≠ none := by
  have htaken : (bs.find? fun x => (vm.get? x.name).isSome).isSome := by
    rw [List.find?_isSome]
    by_contra hnone
    exact h fun x hx => Option.not_isSome_iff_eq_none.1 fun hsome => hnone ⟨x, hx, hsome⟩
  obtain ⟨x, hx⟩ := Option.isSome_iff_exists.1 htaken
  obtain ⟨hsome, before, after, rfl, hbefore⟩ := List.find?_eq_some_iff_append.1 hx
  refine ⟨before, x, after, rfl, fun y hy => ?_, Option.isSome_iff_ne_none.1 hsome⟩
  have hy := hbefore y hy
  cases hget : vm.get? y.name with
  | none => rfl
  | some old =>
    rw [hget] at hy
    cases hy

/-! ## The outcomes of a set-up -/

theorem setupBinding_of_bound (h : vm.binding ≠ none) (b : Binding) :
    setupBinding b vm = .error (.error .bindingAlreadySet) vm := by
  have hcheck : requireUnbound vm = .error (.error .bindingAlreadySet) vm := by
    rw [requireUnbound_eq, if_pos (Option.isSome_iff_ne_none.2 h)]
  exact bind_of_error hcheck

theorem requireUnbound_of_none (h : vm.binding = none) : requireUnbound vm = .ok () vm := by
  rw [requireUnbound_eq, h]
  rfl

theorem setupBinding_of_fresh (hb : b.OfProfile) (h : vm.binding = none) (hfresh : ∀ x ∈ b.items, vm.get? x.name = none) :
    setupBinding b vm = .ok () { vm.declare b.items with binding := some (b.items.map (⟨·, true⟩)) } := by
  have hadd : addBound b.items vm = .ok () (vm.declare b.items) := addBound_eq hb.nodup hb.pos hfresh
  exact (bind_of_ok (requireUnbound_of_none h)).trans (bind_of_ok hadd)

/-- The variables of the registers before the first taken name are made, and stay. -/
theorem setupBinding_of_taken (hb : b.OfProfile) (h : vm.binding = none) (hitems : b.items = before ++ x :: after)
    (hfresh : ∀ y ∈ before, vm.get? y.name = none) (htaken : vm.get? x.name ≠ none) :
    setupBinding b vm = .error (.error (.duplicateVariable x.name)) (vm.declare before) := by
  have hnodup := hb.nodup
  have hpos := hb.pos
  rw [hitems] at hnodup hpos
  rw [List.map_append, List.nodup_append] at hnodup
  have hbefore : addBound before vm = .ok () (vm.declare before) :=
    addBound_eq hnodup.1 (fun y hy => hpos y (List.mem_append_left _ hy)) hfresh
  have htaken' : (vm.declare before).get? x.name ≠ none := fun hnone => htaken (get?_declare_eq_none.1 hnone).1
  have hadd : addBound b.items vm = .error (.error (.duplicateVariable x.name)) (vm.declare before) := by
    rw [hitems, addBound_append, bind_of_ok hbefore]
    exact addBound_of_taken (hpos x (List.mem_append_right _ (List.mem_cons_self ..))) htaken'
  exact (bind_of_ok (requireUnbound_of_none h)).trans (bind_of_error hadd)

/-- A set-up succeeds exactly if there is no binding yet and no variable has the name of one of the registers. One that
fails leaves the binding alone. The interpreter is as it was if there was a binding; otherwise it has the variables of the
registers before the first one whose name is taken, so it is as it was only if that is the very first one. If it is not, the
failed set-up itself has taken a name, and a second attempt stops there. -/
theorem setUp_stops (hb : b.OfProfile) (vm : Vm) :
    ((∃ vm', setupBinding b vm = .ok () vm') ↔ vm.binding = none ∧ ∀ x ∈ b.items, vm.get? x.name = none) ∧
    ∀ f vm', setupBinding b vm = .error f vm' → vm'.binding = vm.binding ∧
      (vm.binding ≠ none ∧ f = .error .bindingAlreadySet ∧ vm' = vm ∨
        vm.binding = none ∧ ∃ before x after, b.items = before ++ x :: after ∧ (∀ y ∈ before, vm.get? y.name = none) ∧
          vm.get? x.name ≠ none ∧ f = .error (.duplicateVariable x.name) ∧
          vm' = { vm with globals := vm.globals ++ before.map fun y => (y.name, y.blank) } ∧ (vm' = vm ↔ before = []) ∧
          ∀ y, before.head? = some y → setupBinding b vm' = .error (.error (.duplicateVariable y.name)) vm') := by
  by_cases hbound : vm.binding = none
  case neg =>
    rw [setupBinding_of_bound hbound]
    refine ⟨⟨nofun, fun h => absurd h.1 hbound⟩, fun f vm' herror => ?_⟩
    cases herror
    exact ⟨rfl, .inl ⟨hbound, rfl, rfl⟩⟩
  by_cases hfresh : ∀ x ∈ b.items, vm.get? x.name = none
  case pos =>
    rw [setupBinding_of_fresh hb hbound hfresh]
    exact ⟨⟨fun _ => ⟨hbound, hfresh⟩, fun _ => ⟨_, rfl⟩⟩, nofun⟩
  case neg =>
    obtain ⟨before, x, after, hitems, hbefore, htaken⟩ := exists_first_taken hfresh
    rw [setupBinding_of_taken hb hbound hitems hbefore htaken]
    refine ⟨⟨nofun, fun h => absurd h.2 hfresh⟩, fun f vm' herror => ?_⟩
    cases herror
    refine ⟨rfl, .inr ⟨hbound, before, x, after, hitems, hbefore, htaken, rfl, rfl, declare_eq_self_iff, fun y hy => ?_⟩⟩
    -- the first register now has a variable, so nothing more is made
    obtain ⟨rest, rfl⟩ := List.head?_eq_some_iff.1 hy
    have hmade : (vm.declare (y :: rest)).get? y.name ≠ none := fun hnone =>
      (get?_declare_eq_none.1 hnone).2 (List.mem_map_of_mem (List.mem_cons_self ..))
    have hagain : setupBinding b (vm.declare (y :: rest)) = .error _ ((vm.declare (y :: rest)).declare []) :=
      setupBinding_of_taken hb hbound hitems nofun hmade
    rwa [declare_nil] at hagain

/-- The second of three registers has the name of a variable: the first one gets one, and keeps it. -/
theorem setUp_stops_at_second :
    let p : Profile := ⟨[⟨"r0", 0, 32, .gpr⟩, ⟨"r1", 32, 32, .gpr⟩, ⟨"r2", 64, 32, .gpr⟩], none⟩
    let vm : Vm := { config := {}, pc := .zero 32 (by decide), globals := [("r1", .bool true)] }
    (Binding.derive p).OfProfile ∧ ∃ vm', setupBinding (.derive p) vm = .error (.error (.duplicateVariable "r1")) vm' ∧
      vm' ≠ vm ∧ vm'.binding = none ∧ setupBinding (.derive p) vm' = .error (.error (.duplicateVariable "r0")) vm' := by
  intro p vm
  have hp : p.validate = .ok () := by decide
  have hb : (Binding.derive p).OfProfile := ⟨p, hp, .inl rfl⟩
  have hitems : (Binding.derive p).items = [⟨"r0", 32⟩, ⟨"r1", 32⟩, ⟨"r2", 32⟩] := by decide
  have hrun : setupBinding (.derive p) vm = .error (.error (.duplicateVariable "r1")) _ := rfl
  obtain ⟨hbinding, hfailed⟩ := (setUp_stops hb vm).2 _ _ hrun
  obtain ⟨hbound, -⟩ | ⟨-, before, x, after, hsplit, -, htaken, -, -, hsame, hagain⟩ := hfailed
  · exact absurd rfl hbound
  rw [hitems] at hsplit
  cases before with
  | nil =>
    obtain ⟨rfl, -⟩ := List.cons.inj hsplit
    exact absurd rfl htaken
  | cons y before =>
    obtain ⟨rfl, -⟩ := List.cons.inj hsplit
    refine ⟨hb, _, hrun, fun h => ?_, hbinding, hagain _ rfl⟩
    cases hsame.1 h

/-- A set-up that fails at its second register leaves a new variable for the first one. -/
theorem setUp_leaves_variable :
    let p : Profile := ⟨[⟨"r0", 0, 32, .gpr⟩, ⟨"r1", 32, 32, .gpr⟩], none⟩
    ∃ start vm vm', p.validate = .ok () ∧ new {} = .ok start ∧
      addGlobal "r1" (.bits (.ofNat 32 7 (by decide))) start = .ok 0 vm ∧
      setupBinding (.derive p) vm = .error (.error (.duplicateVariable "r1")) vm' ∧
      vm.globals.map (·.1) = ["r1"] ∧ vm'.globals.map (·.1) = ["r1", "r0"] ∧ vm'.binding = none :=
  ⟨_, _, _, by decide, rfl, rfl, rfl, rfl, rfl, rfl⟩

end Vm
end SuperH
