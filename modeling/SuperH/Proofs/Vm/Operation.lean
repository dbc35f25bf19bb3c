import SuperH.Proofs.Vm.SetUp

/-!
# Histories of an interpreter

* `Vm.declared` : the names and sorts of the variables, in the order of their making;
* `Vm.Operation` : what can be done to an interpreter, with any outcome; `Vm.runAll` does one thing after the other;
* `Vm.Closed` : a property that no single change of an operation can break; `Operation.run_keeps` : no operation breaks
  it, either;
* `Vm.Sound` : distinct names, a program counter of its width, and variables of the sorts of their bound registers;
* `Vm.Later` : what an interpreter keeps of an earlier one; `later_of_history` : two moments of a history in which a
  binding was set up.
-/

namespace SuperH

/-! ## Names and sorts -/

namespace Env

variable {env : Env} {name : String}

theorem map_sort_assign {old value : Value} (hold : env.lookup name = some old) (hs : old.sort = value.sort) :
    (env.assign name value).map (fun g => (g.1, g.2.sort)) = env.map fun g => (g.1, g.2.sort) := by
  induction env with
  | nil => cases hold
  | cons g env ih =>
    obtain ⟨n, x⟩ := g
    by_cases hn : name = n
    · subst hn
      rw [List.lookup_cons_self] at hold
      cases hold
      simp [assign, hs]
    · have hne : (name == n) = false := by simpa using hn
      have hne' : (n == name) = false := by simpa using Ne.symm hn
      rw [List.lookup_cons, hne] at hold
      simp [assign, hne', ih hold]

theorem lookup_map_sort (env : Env) (name : String) :
    (env.map fun g => (g.1, g.2.sort)).lookup name = (env.lookup name).map Value.sort := by
  induction env with
  | nil => rfl
  | cons g env ih =>
    obtain ⟨n, x⟩ := g
    by_cases hn : name = n
    · simp [hn]
    · have hne : (name == n) = false := by simpa using hn
      simp [List.lookup_cons, hne, ih]

end Env

namespace Vm

/-- The names and sorts of the variables, in the order of their making. -/
def declared (vm : Vm) : List (String × ValueSort) := vm.globals.map fun g => (g.1, g.2.sort)

variable {vm : Vm} {name : String}

theorem names_declared (vm : Vm) : vm.declared.map (·.1) = vm.globals.map (·.1) := by
  rw [declared, List.map_map]
  rfl

theorem lookup_declared (vm : Vm) (name : String) : vm.declared.lookup name = (vm.get? name).map Value.sort :=
  Env.lookup_map_sort ..

theorem varId?_eq (vm : Vm) (name : String) : vm.varId? name = vm.declared.findIdx? (·.1 == name) := by
  rw [declared, List.findIdx?_map]
  rfl

theorem declared_replace {old value : Value} (hold : vm.get? name = some old) (hs : old.sort = value.sort) :
    (vm.replace name value).declared = vm.declared := Env.map_sort_assign hold hs

/-! ## Operations -/

/-- What can be done to an interpreter: every operation on its variables, exceptions, program counter and binding, and
the runs and the synchronisation with any memory and any register file. -/
inductive Operation : Type 1 where
  | addGlobal (name : String) (value : Value)
  | set (name : String) (value : Value)
  | exec {σ : Type} [Bus σ] (effect : Effect) (bus : σ)
  | step {σ : Type} [Bus σ] (lifted : Lifted) (size : Nat) (bus : σ)
  | raise (name : String)
  | takeEvents
  | setPc (target : Bits)
  | setup (binding : Binding)
  | attach (binding : Binding)
  | toPhysical (regs : RegisterFile)
  | fromPhysical (regs : RegisterFile)

/-- The interpreter after an operation, however that ends. -/
def Operation.run (vm : Vm) : Operation → Vm
  | addGlobal name value => final (Vm.addGlobal name value vm)
  | set name value => final (setGlobal name value vm)
  | exec effect bus => (final (Machine.exec effect ⟨vm, bus⟩)).vm
  | step lifted size bus => (final (Machine.step lifted size ⟨vm, bus⟩)).vm
  | raise name => final (Vm.raise name vm)
  | takeEvents => final (Vm.takeEvents vm)
  | setPc target => final (Vm.setPc target vm)
  | setup binding => final (setupBinding binding vm)
  | attach binding => final (attachBinding binding vm)
  -- only the registers are written
  | toPhysical _ => vm
  | fromPhysical regs => final (Sync.fromPhysical regs vm)

/-- The interpreter after several operations. -/
def runAll (ops : List Operation) (vm : Vm) : Vm := ops.foldl Operation.run vm

theorem runAll_append (ops ops' : List Operation) (vm : Vm) : runAll (ops ++ ops') vm = runAll ops' (runAll ops vm) :=
  List.foldl_append

/-- A property that no single change of an operation can break. A binding is made for variables of the right sorts and
loads values that fit its registers. -/
structure Closed (p : Vm → Prop) : Prop where
  stable : Policy.any.Stable p
  declare : ∀ {vm name value}, vm.get? name = none → p vm → p { vm with globals := vm.globals ++ [(name, value)] }
  take : ∀ {vm}, p vm → p { vm with events := [] }
  bind : ∀ {vm} {bs : List Bound}, vm.binding = none →
    (∀ b ∈ bs, vm.declared.lookup b.name = some b.sort) → p vm → p { vm with binding := some (bs.map (⟨·, true⟩)) }
  load : ∀ {vm bs} {b : BoundVar} {v : Bits}, vm.binding = some bs → b ∈ bs → b.resolved = true →
    v.width = b.register.size → p vm → p (vm.replace b.register.name (Sync.loaded (vm.get? b.register.name) v))

end Vm

/-! ## What no operation breaks -/

namespace Vm

variable {p : Vm → Prop}

theorem fromPhysical_keeps (h : Closed p) (regs : RegisterFile) : Keeps p (Sync.fromPhysical regs) :=
  Sync.fromPhysical_keeps h.stable.pc h.load

theorem addGlobal_keeps (h : Closed p) (name : String) (value : Value) : Keeps p (addGlobal name value) := by
  intro vm hp
  cases hget : vm.get? name with
  | none =>
    rw [addGlobal_eq hget]
    exact h.declare hget hp
  | some old =>
    show Satisfies _ _ ((if (vm.get? name).isSome then throw (.error (.duplicateVariable name)) else _ : VmM Nat) vm)
    rw [hget]
    exact hp

/-- Variables that are made for registers are kept, also if the set-up stops at one of them. -/
theorem addBound_keeps (h : Closed p) (bs : List Bound) : Keeps p (addBound bs) := by
  induction bs with
  | nil => exact Keeps.pure
  | cons b bs ih => exact Keeps.bind Keeps.ofFault fun value => Keeps.bind (addGlobal_keeps h b.name value) fun _ => ih

theorem requireUnbound_eq (vm : Vm) :
    requireUnbound vm = if vm.binding.isSome then .error (.error .bindingAlreadySet) vm else .ok () vm := by
  show (if vm.binding.isSome then throw (.error .bindingAlreadySet) else pure () : VmM Unit) vm = _
  split
  · rfl
  · rfl

/-- A set-up that fails has made some variables, and one that succeeds binds what it made. -/
theorem setupBinding_keeps (h : Closed p) (binding : Binding) : Keeps p (setupBinding binding) := by
  intro vm hp
  have hcheck := requireUnbound_eq vm
  cases hbinding : vm.binding with
  | some bs =>
    rw [hbinding] at hcheck
    rw [setupBinding, bind_of_error hcheck]
    exact hp
  | none =>
    rw [hbinding] at hcheck
    have hadd := addBound_keeps h binding.items vm hp
    cases hmade : addBound binding.items vm with
    | error e vm' =>
      rw [hmade] at hadd
      rw [setupBinding, bind_of_ok hcheck, bind_of_error hmade]
      exact hadd
    | ok u vm' =>
      rw [hmade] at hadd
      have hset : setupBinding binding vm = .ok () { vm' with binding := some (binding.items.map (⟨·, true⟩)) } := by
        rw [setupBinding, bind_of_ok hcheck, bind_of_ok hmade]
        rfl
      have hunbound : vm'.binding = none := by
        obtain ⟨hnodup, hpos, hfresh⟩ := fresh_of_addBound hmade
        rw [addBound_eq hnodup hpos hfresh] at hmade
        cases hmade
        exact hbinding
      rw [hset]
      refine h.bind hunbound (fun b hb => ?_) hadd
      rw [lookup_declared]
      exact sort_of_setupBinding hset b hb

theorem attachBinding_of_bound {bs : List BoundVar} (hbinding : vm.binding = some bs) (binding : Binding) :
    attachBinding binding vm = .error (.error .bindingAlreadySet) vm := by
  have hcheck := requireUnbound_eq vm
  rw [hbinding] at hcheck
  exact bind_of_error hcheck

theorem binding_run_attach (hbinding : vm.binding = none) (binding : Binding) :
    ((Operation.attach binding).run vm).binding =
      some (binding.items.map fun b => ⟨b, (vm.get? b.name).isSome⟩) := by
  have hcheck := requireUnbound_eq vm
  rw [hbinding] at hcheck
  show (final (attachBinding binding vm)).binding = _
  rw [attachBinding, bind_of_ok hcheck]
  rfl

/-- No operation breaks a closed property, except that registers may be bound to variables of other sorts. -/
theorem Operation.run_keeps (h : Closed p) {op : Operation} (hattach : ∀ b, op = .attach b → vm.binding ≠ none) (hp : p vm) :
    p (op.run vm) := by
  cases op with
  | addGlobal name value => exact (addGlobal_keeps h name value).final hp
  | set name value => exact (assign_keeps h.stable.closed (v := ⟨.global, name⟩) (fun _ => trivial) value).final hp
  | exec effect bus =>
    exact (Machine.exec_keeps Policy.any_refutes h.stable.closed effect.within_any).final (s := ⟨vm, bus⟩) hp
  | step lifted size bus =>
    exact (Machine.step_keeps Policy.any_refutes h.stable lifted.within_any size).final (s := ⟨vm, bus⟩) hp
  | raise name => exact h.stable.raise trivial hp
  | takeEvents => exact h.take hp
  | setPc target =>
    show p (final (Vm.setPc target vm))
    rw [setPc_eq_dite]
    split
    · exact h.stable.pc _ hp
    · exact hp
  | setup binding => exact (setupBinding_keeps h binding).final hp
  | attach binding =>
    obtain ⟨bs, hbs⟩ := Option.ne_none_iff_exists'.1 (hattach binding rfl)
    show p (final (attachBinding binding vm))
    rw [attachBinding_of_bound hbs]
    exact hp
  | toPhysical regs => exact hp
  | fromPhysical regs => exact (fromPhysical_keeps h regs).final hp

/-- An operation keeps a binding that there is. -/
theorem binding_run {bs : List BoundVar} (op : Operation) (h : vm.binding = some bs) : (op.run vm).binding = some bs := by
  have hclosed : Closed fun vm => vm.binding = some bs :=
    { stable := ⟨id, fun _ _ _ => id, id, fun _ => id, id, fun _ => id⟩
      declare := fun _ => id
      take := id
      bind := by
        intro vm cs hnone _ hsome
        rw [hnone] at hsome
        cases hsome
      load := fun _ _ _ _ => id }
  refine Operation.run_keeps hclosed (fun b _ => ?_) h
  rw [h]
  nofun

theorem binding_runAll {bs : List BoundVar} (ops : List Operation) (h : vm.binding = some bs) :
    (runAll ops vm).binding = some bs := by
  induction ops generalizing vm with
  | nil => exact h
  | cons op ops ih => exact ih (binding_run op h)

/-! ## Sorts over time -/

/-- Distinct names, a program counter of its width, and for each bound register a variable of its sort. -/
structure Sound (vm : Vm) : Prop where
  nodup : (vm.declared.map (·.1)).Nodup
  pc : vm.pc.width = vm.config.pcBits
  bound : ∀ bs, vm.binding = some bs → ∀ b ∈ bs, b.resolved = true →
    vm.declared.lookup b.register.name = some b.register.sort

/-- What a sound interpreter keeps of an earlier one: the configuration and the variables that there were, each in its
place and of its sort. -/
structure Later (early vm : Vm) : Prop where
  sound : vm.Sound
  config : vm.config = early.config
  declared : early.declared <+: vm.declared

variable {early : Vm}

theorem Sound.refl_later (h : vm.Sound) : Later vm vm := ⟨h, rfl, List.prefix_rfl⟩

theorem Later.trans {mid : Vm} (h : Later early mid) (h' : Later mid vm) : Later early vm :=
  ⟨h'.sound, h'.config.trans h.config, h.declared.trans h'.declared⟩

/-- Neither the values of the variables nor the rest of the state matter. -/
theorem Later.transfer {vm' : Vm} (h : Later early vm) (hconfig : vm'.config = vm.config)
    (hpc : vm'.pc.width = vm'.config.pcBits) (hbinding : vm'.binding = vm.binding) (hdeclared : vm'.declared = vm.declared) :
    Later early vm' := by
  obtain ⟨⟨hnodup, -, hbound⟩, hearly, hprefix⟩ := h
  refine ⟨⟨?_, hpc, ?_⟩, hconfig.trans hearly, ?_⟩
  · rwa [hdeclared]
  · rwa [hbinding, hdeclared]
  · rwa [hdeclared]

theorem Later.declare {value : Value} (h : Later early vm) (hnew : vm.get? name = none) :
    Later early { vm with globals := vm.globals ++ [(name, value)] } := by
  have hdeclared : Vm.declared { vm with globals := vm.globals ++ [(name, value)] } =
      vm.declared ++ [(name, value.sort)] := List.map_append
  have hfresh : name ∉ vm.declared.map (·.1) := by
    rw [names_declared]
    exact Env.lookup_eq_none_iff.1 hnew
  refine ⟨⟨?_, h.sound.pc, fun bs hbs b hb hres => ?_⟩, h.config, ?_⟩
  · rw [hdeclared, List.map_append, List.map_singleton, ← List.concat_eq_append]
    exact h.sound.nodup.concat hfresh
  · rw [hdeclared, List.lookup_append, h.sound.bound bs hbs b hb hres, Option.some_or]
  · rw [hdeclared]
    exact h.declared.trans (List.prefix_append _ _)

theorem Later.load {bs : List BoundVar} {b : BoundVar} {v : Bits} (h : Later early vm) (hbs : vm.binding = some bs)
    (hb : b ∈ bs) (hres : b.resolved = true) (hv : v.width = b.register.size) :
    Later early (vm.replace b.register.name (Sync.loaded (vm.get? b.register.name) v)) := by
  have hsort := h.sound.bound bs hbs b hb hres
  rw [lookup_declared] at hsort
  obtain ⟨old, hold, hsort⟩ := Option.map_eq_some_iff.1 hsort
  refine h.transfer rfl h.sound.pc rfl (declared_replace hold ?_)
  rw [hold, Sync.sort_loaded hsort hv]

/-- A name stands for the same variable. -/
theorem Later.varId? (h : Later early vm) {i : Nat} (hi : early.varId? name = some i) : vm.varId? name = some i := by
  obtain ⟨rest, hrest⟩ := h.declared
  rw [varId?_eq] at hi ⊢
  rw [← hrest, List.findIdx?_append, hi, Option.some_or]

/-- A variable has the sort that it had. -/
theorem Later.sort (h : Later early vm) {x : Value} (hx : early.get? name = some x) :
    ∃ y, vm.get? name = some y ∧ y.sort = x.sort := by
  obtain ⟨rest, hrest⟩ := h.declared
  have hearly : early.declared.lookup name = some x.sort := by rw [lookup_declared, hx, Option.map_some]
  have hlate : (vm.get? name).map Value.sort = some x.sort := by
    rw [← lookup_declared, ← hrest, List.lookup_append, hearly, Option.some_or]
  exact Option.map_eq_some_iff.1 hlate

theorem closed_later (early : Vm) : Closed (Later early) where
  stable :=
    { start := fun h => h.transfer rfl h.sound.pc rfl rfl
      global := fun _ hold hs h => h.transfer rfl h.sound.pc rfl (declared_replace hold hs)
      temp := fun h => h.transfer rfl h.sound.pc rfl rfl
      pc := fun _ h => h.transfer rfl rfl rfl rfl
      jumped := fun h => h.transfer rfl h.sound.pc rfl rfl
      raise := fun _ h => h.transfer rfl h.sound.pc rfl rfl }
  declare hnew h := h.declare hnew
  take h := h.transfer rfl h.sound.pc rfl rfl
  bind := by
    intro vm bs _ hsorts h
    refine ⟨⟨h.sound.nodup, h.sound.pc, ?_⟩, h.config, h.declared⟩
    intro cs hcs b hb _
    cases hcs
    obtain ⟨c, hc, rfl⟩ := List.mem_map.1 hb
    exact hsorts c hc
  load hbs hb hres hv h := h.load hbs hb hres hv

/-- No operation undoes a set-up. -/
theorem SetUpBy.closed (b : Binding) : Closed (SetUpBy b) where
  stable := SetUpBy.stable b
  declare := by
    intro vm name value hnew h
    refine h.transfer rfl rfl fun x hx => ?_
    obtain ⟨old, hold, -⟩ := Option.map_eq_some_iff.1 (h.sort_of_mem x hx)
    have hold' : vm.globals.lookup x.name = some old := hold
    rw [get?, get?, List.lookup_append, hold', Option.some_or]
  take h := h.transfer rfl rfl fun _ _ => rfl
  bind hnone _ h := by
    rw [h.binding_eq] at hnone
    cases hnone
  load := by
    intro vm bs c v hbs hc _ hv h
    refine h.transfer rfl rfl fun x _ => ?_
    rw [h.binding_eq] at hbs
    cases hbs
    obtain ⟨y, hy, rfl⟩ := List.mem_map.1 hc
    obtain ⟨old, hold, hsort⟩ := Option.map_eq_some_iff.1 (h.sort_of_mem y hy)
    rw [hold, get?_replace, hold]
    split
    · rw [‹x.name = y.name›, hold, Option.map_some, Option.map_some, Option.map_some, Sync.sort_loaded hsort hv]
    · rfl

/-! ## Histories -/

theorem sound_of_new {config : VmConfig} (h : new config = .ok vm) : vm.Sound := by
  obtain ⟨hpos, rfl⟩ := new_eq_ok h
  exact ⟨List.nodup_nil, rfl, nofun⟩

/-- Once there is a binding, nothing that an interpreter has is lost. -/
theorem Sound.later_of_bound {bs : List BoundVar} (h : vm.Sound) (hbinding : vm.binding = some bs) (ops : List Operation) :
    Later vm (runAll ops vm) := by
  induction ops generalizing vm with
  | nil => exact h.refl_later
  | cons op ops ih =>
    have hstep : Later vm (op.run vm) := Operation.run_keeps (closed_later vm) (by
      rw [hbinding]
      nofun) h.refl_later
    exact hstep.trans (ih hstep.sound (binding_run op hbinding))

/-- Nor before there is one: registers cannot have been bound to variables of other sorts. -/
theorem Sound.later_of_unbound (h : vm.Sound) {ops : List Operation} (hbinding : (runAll ops vm).binding = none) :
    Later vm (runAll ops vm) := by
  induction ops generalizing vm with
  | nil => exact h.refl_later
  | cons op ops ih =>
    have hstep : Later vm (op.run vm) := by
      refine Operation.run_keeps (closed_later vm) ?_ h.refl_later
      rintro b rfl hnone
      have hbound := binding_runAll ops (binding_run_attach hnone b)
      change (runAll ops _).binding = none at hbinding
      rw [hbound] at hbinding
      cases hbinding
    exact hstep.trans (ih hstep.sound hbinding)

/-- Two moments of a history in which a binding was set up. -/
theorem later_of_history {config : VmConfig} {start bound : Vm} (hnew : new config = .ok start) {before after : List Operation}
    {binding : Binding} (hset : setupBinding binding (runAll before start) = .ok () bound) {ops ops' : List Operation}
    (hops : ops ++ ops' = before ++ .setup binding :: after) :
    Later start (runAll ops start) ∧ Later (runAll ops start) (runAll ops' (runAll ops start)) := by
  have hstart := sound_of_new hnew
  have hunbound : (runAll before start).binding = none := by
    cases hbinding : (runAll before start).binding with
    | none => rfl
    | some bs =>
      rw [setupBinding, bind_of_error (by rw [requireUnbound_eq, hbinding]; rfl)] at hset
      cases hset
  have hbound : bound.binding = some (binding.items.map (⟨·, true⟩)) := by
    obtain ⟨-, -, -, rfl⟩ := setupBinding_eq_ok hset
    rfl
  have hbefore := hstart.later_of_unbound hunbound
  have hsetup : Later (runAll before start) bound :=
    (setupBinding_keeps (closed_later _) binding).of_ok hset hbefore.sound.refl_later
  have hrun : ∀ xs, runAll (before ++ .setup binding :: xs) start = runAll xs bound := by
    intro xs
    rw [runAll_append]
    exact congrArg (runAll xs) (congrArg final hset)
  rcases List.append_eq_append_iff.1 hops with ⟨rest, rfl, rfl⟩ | ⟨done, rfl, hdone⟩
  · -- the earlier moment is before the set-up
    have hmid : Later start (runAll ops start) := by
      refine hstart.later_of_unbound ?_
      cases hbinding : (runAll ops start).binding with
      | none => rfl
      | some bs =>
        rw [runAll_append, binding_runAll rest hbinding] at hunbound
        cases hunbound
    refine ⟨hmid, ?_⟩
    rw [← runAll_append, hops, hrun]
    rw [runAll_append] at hunbound hsetup
    exact (hmid.sound.later_of_unbound hunbound).trans (hsetup.trans (hsetup.sound.later_of_bound hbound after))
  · cases done with
    | nil =>
      obtain rfl : _ = ops' := hdone
      rw [List.append_nil, ← runAll_append, hrun]
      exact ⟨hbefore, hsetup.trans (hsetup.sound.later_of_bound hbound after)⟩
    | cons op done =>
      obtain ⟨rfl, rfl⟩ := List.cons.inj hdone
      rw [hrun]
      have hmid := hsetup.trans (hsetup.sound.later_of_bound hbound done)
      exact ⟨hbefore.trans hmid, hmid.sound.later_of_bound (binding_runAll done hbound) ops'⟩

end Vm
end SuperH
