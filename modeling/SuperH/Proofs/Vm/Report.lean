import SuperH.Proofs.Bits.Operations
import SuperH.Proofs.Vm.RoundTrip
import SuperH.Proofs.Vm.Wiring

/-!
# What a synchronisation reports

Both directions for any valid profile and any binding: its registers may be another profile's, of other sizes than the
variables, and without a variable.

* `Sync.Exact` : a bound register can be written back as it is; `Sync.toPhysical_reports` : a write-back answers whether all can;
* `Sync.Loaded` : what loading bound registers does to the variables, and to nothing else;
* `Sync.fromPhysical_reports` : a load does that also when it fails, and a failure names the registers without a variable;
* `sync_reports` : both, for every interpreter and every history of its binding.
-/

namespace SuperH

/-- The number that stands under a name, zero if there is no such register. -/
def RegisterFile.contentOf (regs : RegisterFile) (name : String) : Nat :=
  match regs.getBits name with
  | .ok (some v) => v.toNat
  | _ => 0

namespace Sync

variable {regs : RegisterFile} {vm vm' : Vm} {b : BoundVar} {bs : List BoundVar}

/-! ## Writing back -/

/-- A bound name is that of a register, and of a variable of its width. -/
def Exact (p : Profile) (vm : Vm) (b : BoundVar) : Prop :=
  ∃ r x, p.get? b.register.name = some r ∧ b.resolved = true ∧ vm.get? b.register.name = some x ∧ x.width = r.size

theorem blank_eq {width : Nat} (h : 0 < width) : blank width = .ok (.zero width h) := dif_pos h

/-- One bound register: what is written fits it in any case, and the answer tells whether it was the variable as it is. -/
theorem writeBound_reports (hp : regs.profile.Valid) (vm : Vm) (b : BoundVar) : ∃ whole regs',
    writeBound vm b regs = .ok whole regs' ∧ regs'.profile = regs.profile ∧ (whole = true ↔ Exact regs.profile vm b) := by
  cases hget : regs.profile.get? b.register.name with
  | none =>
    refine ⟨false, regs, ?_, rfl, nofun, fun ⟨r, x, hr, _⟩ => nomatch hget.symm.trans hr⟩
    refine (bind_of_ok rfl).trans ?_
    rw [hget]
    rfl
  | some r =>
    have hpos := (hp.fits_of_get? hget).pos
    cases hvar : (if b.resolved then vm.get? b.register.name else none) with
    | none =>
      refine ⟨false, regs.put r (Bits.zero r.size hpos).toNat, ?_, rfl, nofun, fun ⟨s, x, _, hres, hx, _⟩ => ?_⟩
      · refine (bind_of_ok rfl).trans ?_
        rw [hget]
        dsimp only
        rw [hvar, blank_eq hpos]
        exact bind_of_ok (RegisterFile.setBits_eq hp hget rfl)
      · rw [if_pos hres, hx] at hvar
        cases hvar
    | some x =>
      have hres : b.resolved = true := by
        by_contra hfalse
        rw [if_neg hfalse] at hvar
        cases hvar
      rw [if_pos hres] at hvar
      refine ⟨x.width == r.size && true, regs.put r (x.toBits.setWidth r.size hpos).toNat, ?_, rfl, ?_⟩
      · refine (bind_of_ok rfl).trans ?_
        rw [hget]
        dsimp only
        rw [if_pos hres, hvar]
        dsimp only
        rw [fit_eq _ hpos]
        exact bind_of_ok (RegisterFile.setBits_eq hp hget rfl)
      · rw [Bool.and_true, beq_iff_eq]
        constructor
        · intro hw
          exact ⟨r, x, hget, hres, hvar, hw⟩
        · rintro ⟨s, y, hs, -, hy, hw⟩
          obtain rfl : r = s := Option.some.inj (hget.symm.trans hs)
          obtain rfl : x = y := Option.some.inj (hvar.symm.trans hy)
          exact hw

theorem writeAllBound_reports (hp : regs.profile.Valid) (vm : Vm) (bs : List BoundVar) : ∃ whole regs',
    writeAllBound vm bs regs = .ok whole regs' ∧ (whole = true ↔ ∀ b ∈ bs, Exact regs.profile vm b) := by
  induction bs generalizing regs with
  | nil => exact ⟨true, regs, rfl, fun _ => nofun, fun _ => rfl⟩
  | cons b bs ih =>
    obtain ⟨first, regs₁, hfirst, hprofile, hexact⟩ := writeBound_reports hp vm b
    have hp₁ : regs₁.profile.Valid := hprofile ▸ hp
    obtain ⟨rest, regs₂, hrest, hall⟩ := ih hp₁
    refine ⟨first && rest, regs₂, (bind_of_ok hfirst).trans (bind_of_ok hrest), ?_⟩
    rw [Bool.and_eq_true, hexact, hall, hprofile, List.forall_mem_cons]

theorem writePc_reports (hp : regs.profile.Valid) (vm : Vm) : ∃ whole regs', writePc vm regs = .ok whole regs' ∧
    regs'.profile = regs.profile ∧ (whole = true ↔ ∃ r, regs.profile.pcRegister? = some r ∧ r.size = vm.pc.width) := by
  cases hr : regs.profile.pcRegister? with
  | none => exact ⟨false, regs, writePc_of_none hr, rfl, nofun, fun ⟨r, h, _⟩ => nomatch h⟩
  | some r =>
    refine ⟨_, _, writePc_eq hp hr, rfl, ?_⟩
    rw [beq_iff_eq]
    exact ⟨fun hsize => ⟨r, rfl, hsize⟩, fun ⟨s, hs, hsize⟩ => Option.some.inj hs ▸ hsize⟩

/-- A write-back is exact if and only if the program counter and every bound variable go to registers of their widths. -/
theorem toPhysical_reports (hp : regs.profile.Valid) (vm : Vm) : ∃ whole regs', toPhysical vm regs = .ok whole regs' ∧
    (whole = true ↔ (∃ r, regs.profile.pcRegister? = some r ∧ r.size = vm.pc.width) ∧
      ∃ bs, vm.binding = some bs ∧ ∀ b ∈ bs, Exact regs.profile vm b) := by
  obtain ⟨pc, regs₁, hpc, hprofile, hexact⟩ := writePc_reports hp vm
  unfold toPhysical
  rw [bind_of_ok hpc]
  cases hbinding : vm.binding with
  | none => exact ⟨false, regs₁, rfl, nofun, fun ⟨_, bs, hbs, _⟩ => nomatch hbs⟩
  | some bs =>
    have hp₁ : regs₁.profile.Valid := hprofile ▸ hp
    obtain ⟨rest, regs₂, hrest, hall⟩ := writeAllBound_reports hp₁ vm bs
    refine ⟨pc && rest, regs₂, bind_of_ok hrest, ?_⟩
    rw [Bool.and_eq_true, hexact, hall, hprofile]
    simp only [Option.some.injEq, exists_eq_left']

/-! ## Loading -/

/-- A variable that takes a number of some bits: a truth value takes the lowest one, a bit-vector all of them. -/
inductive Takes (size n : Nat) : Value → Value → Prop
  | bool {c : Bool} : Takes size n (.bool c) (.bool (n.testBit 0))
  | bits {v w : Bits} : w.width = size → w.toNat = n % 2 ^ size → Takes size n (.bits v) (.bits w)

/-- The bound names that have no variable. -/
def unresolved (bs : List BoundVar) : List String := (bs.filter (!·.resolved)).map (·.register.name)

/-- Every resolved variable has taken the content of its register, cut or extended to the bound size, and nothing else has
changed. -/
structure Loaded (regs : RegisterFile) (bs : List BoundVar) (vm vm' : Vm) : Prop where
  rest : vm' = { vm with globals := vm'.globals }
  names : vm'.globals.map (·.1) = vm.globals.map (·.1)
  bound : ∀ b ∈ bs, b.resolved = true → ∃ old new, vm.get? b.register.name = some old ∧
    vm'.get? b.register.name = some new ∧ Takes b.register.size (regs.contentOf b.register.name) old new
  other : ∀ name, (∀ b ∈ bs, b.resolved = true → b.register.name ≠ name) → vm'.get? name = vm.get? name

theorem contentOf_eq (hp : regs.profile.Valid) {name : String} {r : Register} (hr : regs.profile.get? name = some r) :
    regs.contentOf name = regs.content r := by
  unfold RegisterFile.contentOf
  rw [RegisterFile.getBits_eq hp hr]
  exact Bits.toNat_ofNat.trans (Nat.mod_eq_of_lt RegisterFile.content_lt)

theorem boundContent_reports (hp : regs.profile.Valid) {x : Bound} (hpos : 0 < x.size) :
    boundContent regs x = .ok (.ofNat x.size (regs.contentOf x.name) hpos) := by
  unfold boundContent
  cases hget : regs.profile.get? x.name with
  | none =>
    have hread : regs.getBits x.name = .ok none := by
      unfold RegisterFile.getBits
      rw [hget]
      rfl
    have hzero : regs.contentOf x.name = 0 := by
      unfold RegisterFile.contentOf
      rw [hread]
    rw [hread, hzero]
    refine (blank_eq hpos).trans (congrArg Except.ok (Bits.ext_toNat rfl ?_))
    rw [Bits.toNat_zero, Bits.toNat_ofNat, Nat.zero_mod]
  | some r =>
    rw [contentOf_eq hp hget, RegisterFile.getBits_eq hp hget]
    refine (fit_eq _ hpos).trans (congrArg Except.ok (Bits.ext_toNat rfl ?_))
    rw [Bits.toNat_setWidth, Bits.toNat_ofNat, Bits.toNat_ofNat, Nat.mod_eq_of_lt RegisterFile.content_lt]

theorem takes_loaded {size : Nat} (hpos : 0 < size) (n : Nat) (old : Value) :
    Takes size n old (loaded (some old) (.ofNat size n hpos)) := by
  cases old with
  | bool c =>
    have hlow : (Bits.ofNat size n hpos).lsb = n.testBit 0 := by
      have hdvd : 2 ∣ 2 ^ size := Nat.pow_one 2 ▸ Nat.pow_dvd_pow 2 hpos
      rw [Bits.lsb_eq, Bits.toNat_ofNat, Nat.mod_mod_of_dvd n hdvd, Nat.testBit_zero]
    show Takes size n (.bool c) (.bool (Bits.ofNat size n hpos).lsb)
    rw [hlow]
    exact .bool
  | bits v => exact .bits rfl Bits.toNat_ofNat

theorem loadBound_of_resolved (hp : regs.profile.Valid) (hpos : 0 < b.register.size) (hres : b.resolved = true)
    {old : Value} (hold : vm.get? b.register.name = some old) (bs : List BoundVar) :
    loadBound regs (b :: bs) vm = loadBound regs bs (vm.replace b.register.name
      (loaded (some old) (.ofNat b.register.size (regs.contentOf b.register.name) hpos))) := by
  rw [loadBound, if_pos hres, boundContent_reports hp hpos, ← hold]
  rfl

/-- Loading goes on after a name without a variable, and answers all of them in order. -/
theorem loadBound_reports (hp : regs.profile.Valid) (hnodup : (bs.map (·.register.name)).Nodup)
    (hpos : ∀ b ∈ bs, 0 < b.register.size)
    (hvars : ∀ b ∈ bs, b.resolved = true → b.register.name ∈ vm.globals.map (·.1)) :
    ∃ vm', loadBound regs bs vm = .ok (unresolved bs) vm' ∧ Loaded regs bs vm vm' := by
  induction bs generalizing vm with
  | nil => exact ⟨vm, rfl, rfl, rfl, nofun, fun _ _ => rfl⟩
  | cons b bs ih =>
    rw [List.map_cons, List.nodup_cons] at hnodup
    have hpos' : ∀ c ∈ bs, 0 < c.register.size := fun c hc => hpos c (List.mem_cons_of_mem _ hc)
    by_cases hres : b.resolved = true
    case neg =>
      obtain ⟨vm', hload, hloaded⟩ := ih hnodup.2 hpos' fun c hc => hvars c (List.mem_cons_of_mem _ hc)
      have hunresolved : unresolved (b :: bs) = b.register.name :: unresolved bs := by
        unfold unresolved
        rw [List.filter_cons_of_pos (by rw [Bool.eq_false_iff.2 hres]; rfl), List.map_cons]
      refine ⟨vm', ?_, hloaded.rest, hloaded.names, ?_, ?_⟩
      · rw [loadBound, if_neg hres, bind_of_ok hload, hunresolved]
        rfl
      · rintro c hc hc'
        rcases List.mem_cons.1 hc with rfl | hc
        · exact absurd hc' hres
        · exact hloaded.bound c hc hc'
      · exact fun name hname => hloaded.other name fun c hc => hname c (List.mem_cons_of_mem _ hc)
    case pos =>
      obtain ⟨old, hold⟩ : ∃ old, vm.get? b.register.name = some old := by
        refine Option.ne_none_iff_exists'.1 fun hnone => ?_
        exact Env.lookup_eq_none_iff.1 hnone (hvars b (List.mem_cons_self ..) hres)
      have hsize := hpos b (List.mem_cons_self ..)
      have htakes := takes_loaded hsize (regs.contentOf b.register.name) old
      have hstep := loadBound_of_resolved hp hsize hres hold bs
      generalize loaded (some old) _ = new at htakes hstep
      have hnames : (vm.replace b.register.name new).globals.map (·.1) = vm.globals.map (·.1) := Env.names_assign ..
      have hself : (vm.replace b.register.name new).get? b.register.name = some new := by
        rw [Vm.get?_replace, if_pos rfl, hold]
        rfl
      have hother {name : String} (hne : name ≠ b.register.name) :
          (vm.replace b.register.name new).get? name = vm.get? name := by
        rw [Vm.get?_replace, if_neg hne]
      -- the names are distinct, so the rest of the binding neither reads nor replaces this variable
      have hapart : ∀ c ∈ bs, c.register.name ≠ b.register.name := fun c hc hname =>
        hnodup.1 (hname ▸ List.mem_map_of_mem hc)
      have hvars' : ∀ c ∈ bs, c.resolved = true →
          c.register.name ∈ (vm.replace b.register.name new).globals.map (·.1) := fun c hc hc' =>
        hnames ▸ hvars c (List.mem_cons_of_mem _ hc) hc'
      obtain ⟨vm', hload, hloaded⟩ := ih hnodup.2 hpos' hvars'
      have hunresolved : unresolved (b :: bs) = unresolved bs := by
        unfold unresolved
        rw [List.filter_cons_of_neg (by rw [hres]; decide)]
      refine ⟨vm', ?_, hloaded.rest, hloaded.names.trans hnames, ?_, ?_⟩
      · rw [hstep, hload, hunresolved]
      · rintro c hc hc'
        rcases List.mem_cons.1 hc with rfl | hc
        · exact ⟨old, new, hold, (hloaded.other _ fun d hd _ => hapart d hd).trans hself, htakes⟩
        · obtain ⟨old', new', hold', hnew', htakes'⟩ := hloaded.bound c hc hc'
          exact ⟨old', new', (hother (hapart c hc)).symm.trans hold', hnew', htakes'⟩
      · intro name hname
        have hne : name ≠ b.register.name := (hname b (List.mem_cons_self ..) hres).symm
        exact (hloaded.other name fun c hc => hname c (List.mem_cons_of_mem _ hc)).trans (hother hne)

/-- The program counter is loaded if there is one, and otherwise stays. -/
theorem loadPc_reports (hp : regs.profile.Valid) (hpc : 0 < vm.config.pcBits) : ∃ pc,
    loadPc regs vm = .ok () { vm with pc } ∧ (regs.profile.pcRegister? = none → pc = vm.pc) ∧
      ∀ r, regs.profile.pcRegister? = some r →
        pc.width = vm.config.pcBits ∧ pc.toNat = regs.contentOf r.name % 2 ^ vm.config.pcBits := by
  cases hr : regs.profile.pcRegister? with
  | none => exact ⟨vm.pc, loadPc_of_none hr, fun _ => rfl, nofun⟩
  | some r =>
    refine ⟨_, loadPc_eq hp hr hpc, nofun, ?_⟩
    rintro _ ⟨⟩
    rw [contentOf_eq hp (Profile.get?_of_pcRegister? hr)]
    exact ⟨rfl, Bits.toNat_ofNat⟩

theorem fromPhysical_of_noBinding (hpc : loadPc regs vm = .ok () vm') (hbinding : vm'.binding = none) :
    fromPhysical regs vm = .error (.error .noBinding) vm' := by
  unfold fromPhysical
  refine (bind_of_ok hpc).trans ((bind_of_ok rfl).trans ?_)
  rw [hbinding]
  rfl

theorem fromPhysical_of_names {vm'' : Vm} {names : List String} (hpc : loadPc regs vm = .ok () vm')
    (hbinding : vm'.binding = some bs) (hrun : loadBound regs bs vm' = .ok names vm'') : fromPhysical regs vm =
      if names = [] then .ok () vm'' else .error (.error (.unboundVariables names)) vm'' := by
  unfold fromPhysical
  refine (bind_of_ok hpc).trans ((bind_of_ok rfl).trans ?_)
  rw [hbinding]
  refine (bind_of_ok hrun).trans ?_
  cases names with
  | nil => rfl
  | cons name names => rfl

/-- A load sets the program counter and every resolved variable, also when it fails, and a failure says why. -/
theorem fromPhysical_reports (hp : regs.profile.Valid) (h : vm.Wired) : ∃ vm',
    (vm.binding = none → fromPhysical regs vm = .error (.error .noBinding) vm') ∧
    (∀ bs, vm.binding = some bs → fromPhysical regs vm =
      if unresolved bs = [] then .ok () vm' else .error (.error (.unboundVariables (unresolved bs))) vm') ∧
    (regs.profile.pcRegister? = none → vm'.pc = vm.pc) ∧
    (∀ r, regs.profile.pcRegister? = some r →
      vm'.pc.width = vm.config.pcBits ∧ vm'.pc.toNat = regs.contentOf r.name % 2 ^ vm.config.pcBits) ∧
    Loaded regs (vm.binding.getD []) { vm with pc := vm'.pc } vm' := by
  obtain ⟨pc, hpc, hnone, hsome⟩ := loadPc_reports hp h.pcBits
  by_cases hunbound : vm.binding = none
  case pos =>
    have hnothing : vm.binding.getD [] = [] := by rw [hunbound]; rfl
    rw [hnothing]
    refine ⟨{ vm with pc }, fun _ => fromPhysical_of_noBinding hpc hunbound, fun bs hbs => ?_, hnone, hsome, rfl, rfl, nofun,
      fun _ _ => rfl⟩
    cases hunbound.symm.trans hbs
  case neg =>
    obtain ⟨bs, hbound⟩ := Option.ne_none_iff_exists'.1 hunbound
    have hbs : vm.binding.getD [] = bs := by rw [hbound]; rfl
    have hloads : ∃ vm', loadBound regs bs { vm with pc } = .ok (unresolved bs) vm' ∧ Loaded regs bs { vm with pc } vm' :=
      loadBound_reports hp (h.nodup bs hbound) (h.pos bs hbound) (h.resolved bs hbound)
    obtain ⟨vm', hrun, hloaded⟩ := hloads
    obtain rfl : vm'.pc = pc := by rw [hloaded.rest]
    rw [hbs]
    refine ⟨vm', fun hnone => absurd hnone hunbound, fun bs' hbs' => ?_, hnone, hsome, hloaded⟩
    obtain rfl : bs = bs' := Option.some.inj (hbound.symm.trans hbs')
    exact fromPhysical_of_names hpc hbound hrun

end Sync

/-- Whatever was done to an interpreter, to which registers of any valid profiles may have been bound: a write-back to the
registers of a valid profile answers that it was exact if and only if the profile has a program counter of the interpreter's
width, there is a binding, and every bound name is that of a register and of a variable of its width. A load reports that
there is no binding, or else all bound names without a variable in their order, or succeeds if there are none. In each case
the program counter is loaded, if the profile has one, every variable of the binding has taken its register's content, which
is zero for a register that the profile does not have, and nothing else has changed. -/
theorem sync_reports {config : VmConfig} {start : Vm} (hnew : Vm.new config = .ok start) {ops : List Vm.Operation}
    (hops : ∀ op ∈ ops, ∀ b, op.binding? = some b → b.OfProfile) {p : Profile} (hp : p.validate = .ok ())
    {regs : RegisterFile} (hregs : regs.profile = p) :
    let vm := Vm.runAll ops start
    (∃ whole regs', Sync.toPhysical vm regs = .ok whole regs' ∧
      (whole = true ↔ (∃ r, p.pcRegister? = some r ∧ r.size = vm.pc.width) ∧
        ∃ bs, vm.binding = some bs ∧ ∀ b ∈ bs, Sync.Exact p vm b)) ∧
    ∃ vm', (vm.binding = none → Sync.fromPhysical regs vm = .error (.error .noBinding) vm') ∧
      (∀ bs, vm.binding = some bs → Sync.fromPhysical regs vm = if Sync.unresolved bs = [] then .ok () vm'
        else .error (.error (.unboundVariables (Sync.unresolved bs))) vm') ∧
      (p.pcRegister? = none → vm'.pc = vm.pc) ∧
      (∀ r, p.pcRegister? = some r →
        vm'.pc.width = vm.config.pcBits ∧ vm'.pc.toNat = regs.contentOf r.name % 2 ^ vm.config.pcBits) ∧
      Sync.Loaded regs (vm.binding.getD []) { vm with pc := vm'.pc } vm' := by
  intro vm
  subst hregs
  have hvalid := Profile.valid_of_validate hp
  have hwired : vm.Wired := Vm.wired_runAll (Vm.wired_new hnew) hops
  exact ⟨Sync.toPhysical_reports hvalid vm, Sync.fromPhysical_reports hvalid hwired⟩

/-- A binding of another profile, with a register that the register file does not have, one that gets no variable and one of
another size: the write-back is not exact, and the load reports the second one and has set the others. -/
theorem sync_reports_mismatches :
    let p : Profile := ⟨[⟨"r0", 0, 32, .gpr⟩, ⟨"pc", 32, 32, .gpr⟩], some "pc"⟩
    let q : Profile := ⟨[⟨"ghost", 0, 32, .gpr⟩, ⟨"late", 32, 8, .gpr⟩, ⟨"r0", 48, 16, .gpr⟩], none⟩
    let regs : RegisterFile := (RegisterFile.zeros p).setArena .gpr 0x812345678
    ∃ b start vm', Binding.exactly q ["ghost", "late", "r0"] = .ok b ∧ Vm.new {} = .ok start ∧
      let vm := Vm.runAll [.addGlobal "r0" (.bits (.zero 16 (by decide))), .addGlobal "ghost" (.bits (.ofNat 32 9 (by decide))),
        .attach b] start
      (∃ regs', Sync.toPhysical vm regs = .ok false regs') ∧
      Sync.fromPhysical regs vm = .error (.error (.unboundVariables ["late"])) vm' ∧ vm'.pc.toNat = 8 ∧
      vm'.get? "r0" = some (.bits (.ofNat 16 0x5678 (by decide))) ∧
      vm'.get? "ghost" = some (.bits (.zero 32 (by decide))) := by
  intro p q regs
  have hexactly : Binding.exactly q ["ghost", "late", "r0"] = .ok ⟨[⟨"ghost", 32⟩, ⟨"late", 8⟩, ⟨"r0", 16⟩]⟩ := by decide
  have hops : ∀ op ∈ ([.addGlobal "r0" (.bits (.zero 16 (by decide))),
      .addGlobal "ghost" (.bits (.ofNat 32 9 (by decide))), .attach ⟨[⟨"ghost", 32⟩, ⟨"late", 8⟩, ⟨"r0", 16⟩]⟩] :
      List Vm.Operation), ∀ b, op.binding? = some b → b.OfProfile := by
    simp only [List.forall_mem_cons, List.not_mem_nil, false_imp_iff, implies_true, and_true]
    refine ⟨?_, ?_, ?_⟩
    · rintro _ ⟨⟩
    · rintro _ ⟨⟩
    · rintro _ ⟨⟩
      exact ⟨q, by decide, .inr ⟨_, hexactly⟩⟩
  have hnew : Vm.new {} = .ok _ := rfl
  have hp : p.validate = .ok () := by decide
  have hregs : regs.profile = p := rfl
  obtain ⟨⟨whole, regs', hrun, hwhole⟩, vm', -, hload, -, hpc, hloaded⟩ := sync_reports hnew hops hp hregs
  have hwhole' : whole = false := by
    refine Bool.eq_false_iff.2 fun htrue => ?_
    obtain ⟨-, bs, hbs, hexact⟩ := hwhole.1 htrue
    cases hbs
    obtain ⟨r, x, hr, -⟩ := hexact _ (List.mem_cons_self ..)
    have hghost : p.get? "ghost" = none := by decide
    cases hghost.symm.trans hr
  refine ⟨_, _, vm', hexactly, hnew, ⟨regs', hwhole' ▸ hrun⟩, hload _ rfl, (hpc _ rfl).2.trans (by decide), ?_, ?_⟩
  · obtain ⟨_, _, ⟨⟩, hnew', _ | ⟨hwidth, hnat⟩⟩ := hloaded.bound ⟨⟨"r0", 16⟩, true⟩ (by decide) rfl
    exact hnew'.trans (congrArg (some ∘ Value.bits) (Bits.ext_toNat hwidth (hnat.trans (by decide))))
  · obtain ⟨_, _, ⟨⟩, hnew', _ | ⟨hwidth, hnat⟩⟩ := hloaded.bound ⟨⟨"ghost", 32⟩, true⟩ (by decide) rfl
    exact hnew'.trans (congrArg (some ∘ Value.bits) (Bits.ext_toNat hwidth (hnat.trans (by decide))))

end SuperH
