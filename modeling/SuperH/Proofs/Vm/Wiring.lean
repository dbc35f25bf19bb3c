import SuperH.Proofs.Vm.SetUpFailure

/-!
# Bindings over time

* `Vm.Extends` : an interpreter of the same configuration and with the same binding, and with no fewer variables;
* `Vm.run_extends` : every operation leads to such an interpreter, except those that bind registers;
* `Vm.Wired` : bound registers have bits and names of their own, and each that is resolved has a variable;
* `Vm.wired_runAll` : so it is in every interpreter to which only registers of valid profiles were bound.
-/

namespace SuperH.Vm

variable {vm early : Vm} {name : String} {op : Operation}

/-! ## Operations that bind nothing -/

/-- The interpreter has the configuration, the binding and the variables of an earlier one, and maybe more variables. -/
structure Extends (early vm : Vm) : Prop where
  config : vm.config = early.config
  binding : vm.binding = early.binding
  names : early.globals.map (·.1) <+: vm.globals.map (·.1)

namespace Extends

theorem refl (vm : Vm) : Extends vm vm := ⟨rfl, rfl, List.prefix_rfl⟩

theorem replace (h : Extends early vm) (name : String) (value : Value) : Extends early (vm.replace name value) := by
  refine ⟨h.config, h.binding, ?_⟩
  show _ <+: (vm.globals.assign name value).map (·.1)
  rw [Env.names_assign]
  exact h.names

theorem append (vm : Vm) (env : Env) : Extends vm { vm with globals := vm.globals ++ env } := by
  refine ⟨rfl, rfl, ?_⟩
  show _ <+: (vm.globals ++ env).map (·.1)
  rw [List.map_append]
  exact List.prefix_append _ _

theorem stable (early : Vm) : Policy.any.Stable (Extends early) where
  start h := ⟨h.config, h.binding, h.names⟩
  global _ _ _ h := h.replace _ _
  temp h := ⟨h.config, h.binding, h.names⟩
  pc _ h := ⟨h.config, h.binding, h.names⟩
  jumped h := ⟨h.config, h.binding, h.names⟩
  raise _ h := ⟨h.config, h.binding, h.names⟩

end Extends

/-- The binding that an operation sets up or attaches. -/
def Operation.binding? : Operation → Option Binding
  | .setup b | .attach b => some b
  | _ => none

theorem run_extends (h : op.binding? = none) (vm : Vm) : Extends vm (op.run vm) := by
  have hstable := Extends.stable vm
  cases op with
  | addGlobal name value =>
    show Extends vm (final (Vm.addGlobal name value vm))
    by_cases hget : vm.get? name = none
    · rw [addGlobal_eq hget]
      exact .append vm _
    · rw [addGlobal_of_taken hget]
      exact .refl vm
  | set name value => exact (assign_keeps hstable.closed (v := ⟨.global, name⟩) (fun _ => trivial) value).final (.refl vm)
  | exec effect bus =>
    exact (Machine.exec_keeps Policy.any_refutes hstable.closed effect.within_any).final (s := ⟨vm, bus⟩) (.refl vm)
  | step lifted size bus =>
    exact (Machine.step_keeps Policy.any_refutes hstable lifted.within_any size).final (s := ⟨vm, bus⟩) (.refl vm)
  | raise name => exact hstable.raise trivial (.refl vm)
  | takeEvents => exact ⟨rfl, rfl, List.prefix_rfl⟩
  | setPc target =>
    show Extends vm (final (Vm.setPc target vm))
    rw [setPc_eq_dite]
    split
    · exact hstable.pc _ (.refl vm)
    · exact .refl vm
  | setup b | attach b => cases h
  | toPhysical regs => exact .refl vm
  | fromPhysical regs =>
    exact (Sync.fromPhysical_keeps hstable.pc fun _ _ _ _ h => h.replace _ _).final (.refl vm)

/-! ## Wired interpreters -/

/-- Every bound register has bits and a name of its own, and each that counts as resolved has a variable. -/
structure Wired (vm : Vm) : Prop where
  pcBits : 0 < vm.config.pcBits
  nodup : ∀ bs, vm.binding = some bs → (bs.map (·.register.name)).Nodup
  pos : ∀ bs, vm.binding = some bs → ∀ b ∈ bs, 0 < b.register.size
  resolved : ∀ bs, vm.binding = some bs → ∀ b ∈ bs, b.resolved = true → b.register.name ∈ vm.globals.map (·.1)

theorem Wired.extend (h : early.Wired) (hext : Extends early vm) : vm.Wired where
  pcBits := hext.config ▸ h.pcBits
  nodup bs hbs := h.nodup bs (hext.binding ▸ hbs)
  pos bs hbs := h.pos bs (hext.binding ▸ hbs)
  resolved bs hbs b hb hres := hext.names.subset (h.resolved bs (hext.binding ▸ hbs) b hb hres)

/-- Binding the registers of a valid profile, each resolved only if it has a variable. -/
theorem Wired.bind (h : vm.Wired) {b : Binding} (hb : b.OfProfile) {found : Bound → Bool}
    (hfound : ∀ x ∈ b.items, found x = true → x.name ∈ vm.globals.map (·.1)) :
    Wired { vm with binding := some (b.items.map fun x => ⟨x, found x⟩) } where
  pcBits := h.pcBits
  nodup := by
    rintro _ ⟨⟩
    rw [List.map_map]
    exact hb.nodup
  pos := by
    rintro _ ⟨⟩ _ hc
    obtain ⟨x, hx, rfl⟩ := List.mem_map.1 hc
    exact hb.pos x hx
  resolved := by
    rintro _ ⟨⟩ _ hc hres
    obtain ⟨x, hx, rfl⟩ := List.mem_map.1 hc
    exact hfound x hx hres

theorem wired_setup (h : vm.Wired) {b : Binding} (hb : b.OfProfile) : (final (setupBinding b vm)).Wired := by
  by_cases hbound : vm.binding = none
  case neg =>
    rw [setupBinding_of_bound hbound]
    exact h
  have hdeclare (bs : List Bound) : (vm.declare bs).Wired := h.extend (.append vm _)
  by_cases hfresh : ∀ x ∈ b.items, vm.get? x.name = none
  case pos =>
    rw [setupBinding_of_fresh hb hbound hfresh]
    refine (hdeclare b.items).bind hb fun x hx _ => ?_
    by_contra hnone
    exact (get?_declare_eq_none.1 (Env.lookup_eq_none_iff.2 hnone)).2 (List.mem_map_of_mem hx)
  case neg =>
    obtain ⟨before, x, after, hitems, hbefore, htaken⟩ := exists_first_taken hfresh
    rw [setupBinding_of_taken hb hbound hitems hbefore htaken]
    exact hdeclare before

theorem wired_attach (h : vm.Wired) {b : Binding} (hb : b.OfProfile) : (final (attachBinding b vm)).Wired := by
  by_cases hbound : vm.binding = none
  case neg =>
    obtain ⟨bs, hbs⟩ := Option.ne_none_iff_exists'.1 hbound
    rw [attachBinding_of_bound hbs]
    exact h
  have hattach : attachBinding b vm =
      .ok () { vm with binding := some (b.items.map fun x => ⟨x, (vm.get? x.name).isSome⟩) } :=
    bind_of_ok (requireUnbound_of_none hbound)
  rw [hattach]
  refine h.bind hb fun x _ hfound => ?_
  by_contra hnone
  rw [get?, Env.lookup_eq_none_iff.2 hnone] at hfound
  cases hfound

theorem wired_run (h : vm.Wired) (hop : ∀ b, op.binding? = some b → b.OfProfile) : (op.run vm).Wired := by
  cases hbinds : op.binding? with
  | none => exact h.extend (run_extends hbinds vm)
  | some b =>
    have hb := hop b hbinds
    cases op with
    | setup b => cases hbinds; exact wired_setup h hb
    | attach b => cases hbinds; exact wired_attach h hb
    | _ => cases hbinds

theorem wired_new {config : VmConfig} (h : new config = .ok vm) : vm.Wired := by
  obtain ⟨hpos, rfl⟩ := new_eq_ok h
  exact ⟨hpos, nofun, nofun, nofun⟩

/-- Whatever is done to an interpreter keeps it wired, if only registers of valid profiles are bound. -/
theorem wired_runAll {ops : List Operation} (h : vm.Wired) (hops : ∀ op ∈ ops, ∀ b, op.binding? = some b → b.OfProfile) :
    (runAll ops vm).Wired := by
  induction ops generalizing vm with
  | nil => exact h
  | cons op ops ih =>
    have hfirst := wired_run h (hops op (List.mem_cons_self ..))
    exact ih hfirst fun op' hop' => hops op' (List.mem_cons_of_mem _ hop')

end SuperH.Vm
