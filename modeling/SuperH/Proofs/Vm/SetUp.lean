import SuperH.Proofs.Register.Selection
import SuperH.Proofs.Vm.Policy
import SuperH.Proofs.Vm.Sync

/-!
# Interpreters with a binding set up

* `Bound.blank` : the first value of a bound register, and `Vm.addBound_eq` : the variables that a binding makes;
* `Vm.fresh_of_addBound`, `Vm.setupBinding_eq_ok` : a set-up that succeeds made them, under names that were new;
* `Vm.SetUpBy` : a binding was set up, and its variables have kept their sorts since, which every instruction preserves
  (`Vm.SetUpBy.stable`); such an interpreter is linked to the registers of the binding (`Vm.SetUpBy.linked`).
-/

namespace SuperH

/-! ## Variables of bound registers -/

/-- The first value of a bound register: false for one bit, zero for more. -/
def Bound.blank (b : Bound) : Value :=
  if b.size = 1 then .bool false else if h : 0 < b.size then .bits (.zero b.size h) else .bool false

namespace Vm

theorem initial_eq {b : Bound} (h : 0 < b.size) : initial b = .ok b.blank := by
  unfold initial Bound.blank
  by_cases h₁ : b.size = 1
  · rw [if_pos h₁, if_pos h₁]
  · rw [if_neg h₁, if_neg h₁, dif_pos h, dif_pos h]

theorem addGlobal_eq {vm : Vm} {name : String} (h : vm.get? name = none) (value : Value) :
    addGlobal name value vm = .ok vm.globals.length { vm with globals := vm.globals ++ [(name, value)] } := by
  show (if (vm.get? name).isSome then throw (.error (.duplicateVariable name)) else do
    set { vm with globals := vm.globals ++ [(name, value)] }
    return vm.globals.length : VmM Nat) vm = _
  rw [if_neg (by rw [h]; decide)]
  rfl

/-- Registers with new names of their own get one variable each. -/
theorem addBound_eq {bs : List Bound} (hnodup : (bs.map (·.name)).Nodup) (hpos : ∀ b ∈ bs, 0 < b.size) {vm : Vm}
    (hfresh : ∀ b ∈ bs, vm.get? b.name = none) :
    addBound bs vm = .ok () { vm with globals := vm.globals ++ bs.map fun b => (b.name, b.blank) } := by
  induction bs generalizing vm with
  | nil => simp only [List.map_nil, List.append_nil]; rfl
  | cons b bs ih =>
    rw [List.map_cons, List.nodup_cons] at hnodup
    have hb : vm.get? b.name = none := hfresh b (List.mem_cons_self ..)
    show ((Failure.ofFault (initial b) : VmM Value) >>= fun value => addGlobal b.name value >>= fun _ =>
      addBound bs) vm = _
    rw [initial_eq (hpos b (List.mem_cons_self ..))]
    show EStateM.bind (addGlobal b.name b.blank) _ vm = _
    unfold EStateM.bind
    rw [addGlobal_eq hb]
    refine (ih hnodup.2 (fun c hc => hpos c (List.mem_cons_of_mem _ hc)) fun c hc => ?_).trans ?_
    · -- a later register has another name than this one
      have hne : c.name ≠ b.name := fun he => hnodup.1 (he ▸ List.mem_map_of_mem hc)
      have hbeq : (c.name == b.name) = false := by simpa using hne
      have hc : vm.globals.lookup c.name = none := hfresh c (List.mem_cons_of_mem _ hc)
      simp [get?, hc, List.lookup_append, List.lookup_cons, hbeq]
    · simp

/-- A binding of registers with names of their own is set up on an interpreter without variables. -/
theorem setupBinding_eq {binding : Binding} (hnodup : (binding.items.map (·.name)).Nodup)
    (hpos : ∀ b ∈ binding.items, 0 < b.size) {vm : Vm} (hvars : vm.globals = []) (hbinding : vm.binding = none) :
    setupBinding binding vm = .ok () { vm with
      globals := binding.items.map fun b => (b.name, b.blank)
      binding := some (binding.items.map (⟨·, true⟩)) } := by
  have hfresh : ∀ b ∈ binding.items, vm.get? b.name = none := by
    intro b _
    rw [get?, hvars]
    rfl
  have hadd := addBound_eq hnodup hpos hfresh
  rw [hvars, List.nil_append] at hadd
  have hunbound : requireUnbound vm = .ok () vm := by
    show (if vm.binding.isSome then throw (.error .bindingAlreadySet) else pure () : VmM Unit) vm = _
    rw [hbinding]
    rfl
  show EStateM.bind requireUnbound (fun _ => EStateM.bind (addBound binding.items) _) vm = _
  unfold EStateM.bind
  rw [hunbound]
  dsimp only
  rw [hadd]
  rfl

/-! ## What a set-up establishes -/

theorem new_eq_ok {config : VmConfig} {vm : Vm} (h : new config = .ok vm) :
    ∃ hpos : 0 < config.pcBits, vm = { config, pc := .zero config.pcBits hpos } := by
  unfold new at h
  split at h
  · cases h
    exact ⟨‹_›, rfl⟩
  · cases h

theorem pcBits_pos_of_new {config : VmConfig} {vm : Vm} (h : new config = .ok vm) : 0 < vm.config.pcBits := by
  obtain ⟨hpos, rfl⟩ := new_eq_ok h
  exact hpos

/-- Variables are made only for registers that have bits and for names that are new. -/
theorem fresh_of_addBound {bs : List Bound} {vm vm' : Vm} (h : addBound bs vm = .ok () vm') :
    (bs.map (·.name)).Nodup ∧ (∀ b ∈ bs, 0 < b.size) ∧ ∀ b ∈ bs, vm.get? b.name = none := by
  induction bs generalizing vm with
  | nil => exact ⟨List.nodup_nil, nofun, nofun⟩
  | cons b bs ih =>
    change ((Failure.ofFault (initial b) : VmM Value) >>= fun value => addGlobal b.name value >>= fun _ =>
      addBound bs) vm = _ at h
    have hpos : 0 < b.size := by
      by_contra hzero
      have hsize : b.size = 0 := by omega
      have hinit : initial b = .error .zeroWidth := by
        unfold initial
        simp [hsize]
      rw [hinit] at h
      cases h
    rw [initial_eq hpos] at h
    change (addGlobal b.name b.blank >>= fun _ => addBound bs) vm = _ at h
    have hnew : vm.get? b.name = none := by
      cases hget : vm.get? b.name with
      | none => rfl
      | some old =>
        have hdup : addGlobal b.name b.blank vm = .error (.error (.duplicateVariable b.name)) vm := by
          show (if (vm.get? b.name).isSome then throw (.error (.duplicateVariable b.name)) else _ : VmM Nat) vm = _
          rw [hget]
          rfl
        rw [bind_of_error hdup] at h
        cases h
    rw [bind_of_ok (addGlobal_eq hnew b.blank)] at h
    obtain ⟨hnodup, hsizes, hfresh⟩ := ih h
    have hrest : ∀ c ∈ bs, vm.get? c.name = none ∧ c.name ≠ b.name := by
      intro c hc
      have hnone := hfresh c hc
      rw [get?, List.lookup_append, Option.or_eq_none_iff] at hnone
      refine ⟨hnone.1, ?_⟩
      intro hname
      rw [hname, List.lookup_cons_self] at hnone
      cases hnone.2
    refine ⟨?_, List.forall_mem_cons.2 ⟨hpos, hsizes⟩, ?_⟩
    · rw [List.map_cons, List.nodup_cons]
      refine ⟨fun hmem => ?_, hnodup⟩
      obtain ⟨c, hc, hname⟩ := List.mem_map.1 hmem
      exact (hrest c hc).2 hname
    · exact List.forall_mem_cons.2 ⟨hnew, fun c hc => (hrest c hc).1⟩

theorem setupBinding_eq_ok {binding : Binding} {vm vm' : Vm} (h : setupBinding binding vm = .ok () vm') :
    (binding.items.map (·.name)).Nodup ∧ (∀ b ∈ binding.items, 0 < b.size) ∧
      (∀ b ∈ binding.items, vm.get? b.name = none) ∧
      vm' = { vm with
        globals := vm.globals ++ binding.items.map fun b => (b.name, b.blank)
        binding := some (binding.items.map (⟨·, true⟩)) } := by
  change (requireUnbound >>= fun _ => addBound binding.items >>= fun _ => modify fun vm =>
    { vm with binding := some (binding.items.map (⟨·, true⟩)) }) vm = _ at h
  have hunbound : requireUnbound vm = .ok () vm := by
    cases hreq : requireUnbound vm with
    | error e t =>
      rw [bind_of_error hreq] at h
      cases h
    | ok u t =>
      change (if vm.binding.isSome then throw (.error .bindingAlreadySet) else pure () : VmM Unit) vm = _ at hreq
      split at hreq
      · cases hreq
      · cases hreq
        rfl
  rw [bind_of_ok hunbound] at h
  cases hadd : addBound binding.items vm with
  | error e t =>
    rw [bind_of_error hadd] at h
    cases h
  | ok u t =>
    rw [bind_of_ok hadd] at h
    obtain ⟨hnodup, hpos, hfresh⟩ := fresh_of_addBound hadd
    rw [addBound_eq hnodup hpos hfresh] at hadd
    cases hadd
    cases h
    exact ⟨hnodup, hpos, hfresh, rfl⟩

end Vm

theorem Bound.sort_blank {b : Bound} (h : 0 < b.size) : b.blank.sort = b.sort := by
  unfold blank sort
  by_cases h₁ : b.size = 1
  · rw [if_pos h₁, if_pos h₁]
    rfl
  · rw [if_neg h₁, if_neg h₁, dif_pos h]
    rfl

/-- A set-up gives every variable the sort of its register. -/
theorem Vm.sort_of_setupBinding {b : Binding} {before vm : Vm} (h : setupBinding b before = .ok () vm) :
    ∀ x ∈ b.items, (vm.get? x.name).map Value.sort = some x.sort := by
  obtain ⟨hnodup, hpos, hfresh, rfl⟩ := setupBinding_eq_ok h
  intro x hx
  have hnone : before.globals.lookup x.name = none := hfresh x hx
  have hlookup := Env.lookup_map Bound.blank hnodup hx
  rw [get?, List.lookup_append, hnone, Option.none_or, hlookup, Option.map_some, Bound.sort_blank (hpos x hx)]

/-- An interpreter on which the binding was set up. Since then the variables of the binding may have got any values of
their sorts, and everything else but the configuration and the binding may have changed. -/
structure Vm.SetUpBy (b : Binding) (vm : Vm) : Prop where
  pcBits : 0 < vm.config.pcBits
  origin : ∃ before after, setupBinding b before = .ok () after ∧ vm.config = after.config ∧
    vm.binding = after.binding ∧ ∀ x ∈ b.items, (vm.get? x.name).map Value.sort = (after.get? x.name).map Value.sort

namespace Vm.SetUpBy

variable {b : Binding} {vm : Vm}

theorem of_setupBinding {before : Vm} (h : setupBinding b before = .ok () vm) (hpos : 0 < vm.config.pcBits) :
    vm.SetUpBy b := ⟨hpos, before, vm, h, rfl, rfl, fun _ _ => rfl⟩

/-- Only the configuration, the binding and the sorts of the bound variables matter. -/
theorem transfer {vm' : Vm} (h : vm.SetUpBy b) (hconfig : vm'.config = vm.config) (hbinding : vm'.binding = vm.binding)
    (hsorts : ∀ x ∈ b.items, (vm'.get? x.name).map Value.sort = (vm.get? x.name).map Value.sort) : vm'.SetUpBy b := by
  have hpos := h.pcBits
  obtain ⟨before, after, hset, hc, hb, hs⟩ := h.origin
  rw [← hconfig] at hpos
  exact ⟨hpos, before, after, hset, hconfig.trans hc, hbinding.trans hb, fun x hx => (hsorts x hx).trans (hs x hx)⟩

/-- No instruction undoes a set-up. -/
theorem stable (b : Binding) : Policy.any.Stable (Vm.SetUpBy b) where
  start h := h.transfer rfl rfl fun _ _ => rfl
  global := by
    intro vm name old value _ hold hs h
    refine h.transfer rfl rfl ?_
    intro x _
    rw [get?_replace]
    split
    · subst ‹_ = _›
      rw [hold, Option.map_some, Option.map_some, Option.map_some, hs]
    · rfl
  temp h := h.transfer rfl rfl fun _ _ => rfl
  pc _ h := h.transfer rfl rfl fun _ _ => rfl
  jumped h := h.transfer rfl rfl fun _ _ => rfl
  raise _ h := h.transfer rfl rfl fun _ _ => rfl

theorem binding_eq (h : vm.SetUpBy b) : vm.binding = some (b.items.map (⟨·, true⟩)) := by
  obtain ⟨before, after, hset, -, hbinding, -⟩ := h.origin
  obtain ⟨-, -, -, rfl⟩ := setupBinding_eq_ok hset
  exact hbinding

theorem sort_of_mem (h : vm.SetUpBy b) : ∀ x ∈ b.items, (vm.get? x.name).map Value.sort = some x.sort := by
  obtain ⟨before, after, hset, -, -, hsorts⟩ := h.origin
  intro x hx
  rw [hsorts x hx]
  exact sort_of_setupBinding hset x hx

/-- The registers of a binding and an interpreter on which it was set up are linked. -/
theorem linked {regs : RegisterFile} {rs : List Register} (h : vm.SetUpBy b) (hp : regs.profile.Valid)
    (hb : b.Selects regs.profile rs) : Sync.Linked regs rs vm where
  valid := hp
  known := hb.known
  binding := by
    rw [h.binding_eq, hb.items, List.map_map]
    rfl
  sorts := by
    intro r hr
    exact h.sort_of_mem r.bound (hb.bound_mem hr)
  pcBits := h.pcBits

end Vm.SetUpBy
end SuperH
