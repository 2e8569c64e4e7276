import WasmEngine.Linking.Instantiate
import WasmEngine.Proofs.Execution.Effects
import WasmEngine.Proofs.Instrumentation.Wrapping

/-!
# The reports of a run

Of the journal of a run these are the entries that probes make: coverage for listeners and
instructions for tracers. Nothing else makes such entries, so the reports of a run are those of the
probes it meets, in the order of its visits. Host functions have to be discreet: what they change,
they change without a report, and they leave the probes in place.
-/
namespace WasmEngine
set_option autoImplicit false

/-- The entry is made by a probe. -/
def Event.isReport : Event → Bool
  | .coverage _ _ => true
  | .trace _ (.instruction _ _ _) => true
  | _ => false

/-- The entries of the journal that probes made, in order. -/
def Machine.reports (m : Machine) : List Event := m.journal.toList.filter Event.isReport

/-- The reports of a probe in a frame that entered the block `previous` last. -/
def Probe.reports (p : Probe) (listener tracer : Option Nat) (function : String)
    (previous : BlockId) : List Event :=
  (if p.flags.has ProbeFlags.trace then
    (tracer.map fun t => .trace t (.instruction function p.offset p.replaced.opcode)).toList
  else []) ++
  (if p.flags.has ProbeFlags.offset then
    (listener.map fun l => .coverage l (.offset function p.offset)).toList
  else []) ++
  if p.flags.has ProbeFlags.blockEntry then
    (listener.map fun l => .coverage l (.edge function previous p.block)).toList
  else []

/-- The reports of the probe at the place of a frame, if there is one. -/
def Running.reportsAt (r : Running) (s : FrameState) (m : Machine) : List Event :=
  match r.probe? s.pc with
  | none => []
  | some probe => probe.reports ((m.store.instances[r.inst]?).bind (·.listener))
      ((m.store.instances[r.inst]?).bind (·.tracer)) r.name s.previous

/-- The reports made at a visit: none if the instruction is not run. -/
def Visit.reports (v : Visit) : List Event :=
  if v.dispatched then v.running.reportsAt v.state v.machine else []

namespace Machine

variable (obs : Observers) (m : Machine)

theorem emit_reports {e : Event} (he : e.isReport = true) :
    (m.emit e).reports = m.reports ++ [e] := by
  simp [reports, emit, he]

theorem emit_reports_of_not {e : Event} (he : e.isReport = false) :
    (m.emit e).reports = m.reports := by
  simp [reports, emit, he]

/-- A listener that fails adds a notice only. -/
theorem reportCoverage_reports (function : String) (listener : Nat) (e : CoverageEvent) :
    (m.reportCoverage obs function listener e).reports = m.reports ++ [.coverage listener e] := by
  unfold reportCoverage
  dsimp only
  split
  · exact emit_reports m rfl
  · rw [emit_reports_of_not _ rfl, emit_reports m rfl]

theorem reportInstruction_reports (function : String) (tracer offset opcode : Nat) :
    (m.reportInstruction obs function tracer offset opcode).reports =
      m.reports ++ [.trace tracer (.instruction function offset opcode)] := by
  unfold reportInstruction
  dsimp only
  split
  · exact emit_reports m rfl
  · rw [emit_reports_of_not _ rfl, emit_reports m rfl]

theorem reportAccess_reports (i : InstanceId) (kind : AccessKind) (address width : Nat) :
    (m.reportAccess obs i kind address width).reports = m.reports := by
  unfold reportAccess
  dsimp only
  split
  · rfl
  · split
    · exact emit_reports_of_not m rfl
    · rw [emit_reports_of_not _ rfl, emit_reports_of_not m rfl]

/-- Whether listeners and tracers fail or not, a probe makes its reports. -/
theorem reportProbe_reports (i : InstanceId) (function : String) (probe : Probe)
    (previous : BlockId) :
    (m.reportProbe obs i function probe previous).reports =
      m.reports ++ probe.reports ((m.store.instances[i]?).bind (·.listener))
        ((m.store.instances[i]?).bind (·.tracer)) function previous := by
  unfold reportProbe Probe.reports
  cases (m.store.instances[i]?).bind (·.listener) <;>
    cases (m.store.instances[i]?).bind (·.tracer) <;>
    dsimp only <;> repeat' split
  all_goals simp [reportCoverage_reports, reportInstruction_reports]

end Machine

theorem reportAt_reports (obs : Observers) (r : Running) (s : FrameState) (m : Machine) :
    (reportAt obs r s m).2.reports = m.reports ++ r.reportsAt s m := by
  unfold reportAt Running.reportsAt
  cases r.probe? s.pc with
  | none => exact (List.append_nil _).symm
  | some probe => exact Machine.reportProbe_reports ..

/-- An instance as its settings ask for: with their listener and their tracer, and with probes in
the functions that they select. -/
structure ModuleInstance.Instrumented (config : EngineConfig) (i : ModuleInstance) : Prop where
  listener : i.listener = config.instrumentation.listener
  tracer : i.tracer = config.tracer
  functions : ∀ f ∈ i.functions, ∀ code instrumented, f.body = .defined code instrumented →
    code.ProbeFree ∧ instrumented = config.instrument? f.name code

/-- Every instance is as its settings ask for. -/
def Store.Instrumented (configs : InstanceId → EngineConfig) (s : Store) : Prop :=
  ∀ (k : InstanceId) (i : ModuleInstance), s.instances[k]? = some i → i.Instrumented (configs k)

theorem Store.Instrumented.of_instances_eq {configs : InstanceId → EngineConfig} {s s' : Store}
    (h : s.Instrumented configs) (he : s'.instances = s.instances) : s'.Instrumented configs :=
  fun k i hk => h k i (by rwa [← he])

/-- The reports made between two machines; the probes stay in place. -/
structure Machine.Accounts (configs : InstanceId → EngineConfig) (m m' : Machine)
    (reports : List Event) : Prop where
  reports : m'.reports = m.reports ++ reports
  size : m.store.instances.size ≤ m'.store.instances.size
  store : m.store.Instrumented configs → m'.store.Instrumented configs

/-- A change without reports that leaves the probes in place. -/
abbrev Machine.Quiet (configs : InstanceId → EngineConfig) (m m' : Machine) : Prop :=
  m.Accounts configs m' []

theorem Machine.Accounts.trans {configs : InstanceId → EngineConfig} {m m' m'' : Machine}
    {l l' : List Event} (h : m.Accounts configs m' l) (h' : m'.Accounts configs m'' l') :
    m.Accounts configs m'' (l ++ l') where
  reports := by rw [h'.reports, h.reports, List.append_assoc]
  size := Nat.le_trans h.size h'.size
  store hm := h'.store (h.store hm)

namespace Machine.Quiet

variable {configs : InstanceId → EngineConfig} {m m' : Machine}

theorem of_instances_eq (hr : m'.reports = m.reports)
    (hi : m'.store.instances = m.store.instances) : m.Quiet configs m' where
  reports := by rw [hr, List.append_nil]
  size := Nat.le_of_eq (by rw [hi])
  store h := h.of_instances_eq hi

theorem refl (m : Machine) : m.Quiet configs m := of_instances_eq rfl rfl

theorem withContext (m : Machine) (c : Context) : m.Quiet configs (m.withContext c) :=
  of_instances_eq rfl rfl

theorem updateMemory (m : Machine) (a : MemoryAddr) (f : Memory → Memory) :
    m.Quiet configs (m.updateStore (·.updateMemory a f)) :=
  of_instances_eq rfl rfl

theorem setGlobal (m : Machine) (a : GlobalAddr) (value : Cell) :
    m.Quiet configs (m.updateStore (·.setGlobal a value)) :=
  of_instances_eq rfl rfl

theorem growMemory (m : Machine) (a : MemoryAddr) (delta : Nat) :
    m.Quiet configs (m.updateStore fun s => (s.growMemory a delta).2) := by
  refine of_instances_eq rfl ?_
  show ((m.store.growMemory a delta).2).instances = _
  unfold Store.growMemory
  split <;> rfl

theorem reportAccess (obs : Observers) (m : Machine) (i : InstanceId) (kind : AccessKind)
    (address width : Nat) : m.Quiet configs (m.reportAccess obs i kind address width) :=
  of_instances_eq (reportAccess_reports obs m i kind address width) (by rw [reportAccess_store])

end Machine.Quiet

/-- No instruction makes a report of its own or touches an instance. -/
theorem Effect.quiet {configs : InstanceId → EngineConfig} {obs : Observers} {i : InstanceId}
    {m m' : Machine} (h : Effect obs i m m') : m.Quiet configs m' := by
  cases h with
  | none => exact .refl m
  | access => exact .reportAccess ..
  | write => exact (Machine.Quiet.reportAccess ..).trans (Machine.Quiet.updateMemory ..)
  | setGlobal => exact .setGlobal ..
  | grow => exact .growMemory ..

/-- A turn makes the reports of the visit that begins it. -/
theorem turn_accounts (configs : InstanceId → EngineConfig) (obs : Observers) (v : Visit) :
    v.machine.Accounts configs (turn obs v.running v.state v.machine).machine v.reports := by
  unfold turn Visit.reports Visit.dispatched
  rcases v.machine.context.charge with ⟨_ | _, context⟩
  · exact Machine.Quiet.withContext ..
  · dsimp only
    rw [toTurn_machine, if_pos rfl]
    have hcontext : v.machine.Quiet configs (v.machine.withContext context) := .withContext ..
    have hreport : (v.machine.withContext context).Accounts configs
        (reportAt obs v.running v.state (v.machine.withContext context)).2
        (v.running.reportsAt v.state v.machine) := by
      have hs := reportAt_store obs v.running v.state (v.machine.withContext context)
      refine ⟨reportAt_reports .., Nat.le_of_eq (by rw [hs]), ?_⟩
      rw [hs]
      exact id
    have h := (hcontext.trans hreport).trans (step_result obs v.running.inst v.running.code
      (v.state.pc + 1) v.state.frame _ (v.running.instruction v.state.pc)).effect.quiet
    rwa [List.nil_append, List.append_nil] at h

/-- A frame of a function of an instance with the settings. -/
def Running.Instrumented (config : EngineConfig) (inst : InstanceId) (r : Running) : Prop :=
  ∃ f code, code.ProbeFree ∧ r = .ofFunction inst f code (config.instrument? f.name code)

/-- The visit is one of a frame of an instance that is as its settings ask for. -/
structure Visit.Instrumented (configs : InstanceId → EngineConfig) (v : Visit) : Prop where
  store : v.machine.store.Instrumented configs
  inst_lt : v.function.inst < v.machine.store.instances.size
  running : v.running.Instrumented (configs v.function.inst) v.function.inst

/-- The reports of an observed computation are those of its visits, in order. -/
structure Observed.Accounted {α : Type} (configs : InstanceId → EngineConfig) (m : Machine)
    (o : Observed α) : Prop where
  accounts : m.Accounts configs o.machine (o.visits.flatMap Visit.reports)
  visits : ∀ v ∈ o.visits, v.Instrumented configs

def Observe.Accounted (configs : InstanceId → EngineConfig) (invoke : Observe) : Prop :=
  ∀ path target arguments m, m.store.Instrumented configs →
    (invoke path target arguments m).Accounted configs m

/-- The program makes no reports of its own and leaves the probes in place. -/
def HostProgram.Discreet (configs : InstanceId → EngineConfig) : HostProgram → Prop
  | .finish _ => True
  | .fail _ => True
  | .inspect next => ∀ m, (next m).Discreet configs
  | .update change next => (∀ m : Machine, m.Quiet configs (change m)) ∧ next.Discreet configs
  | .call _ _ _ next => ∀ result, (next result).Discreet configs

def Environment.Discreet (configs : InstanceId → EngineConfig) (env : Environment) : Prop :=
  ∀ id call, (env.host id call).Discreet configs

section
variable {configs : InstanceId → EngineConfig} {m m' : Machine}

namespace Observed

variable {α β : Type}

theorem Accounted.ended (a : α) (h : m.Quiet configs m') :
    (Observed.ended a m').Accounted configs m :=
  ⟨h, fun _ hv => (by cases hv)⟩

theorem Accounted.mono {o : Observed α} (h : m.Quiet configs m') (ho : o.Accounted configs m') :
    o.Accounted configs m :=
  ⟨h.trans ho.accounts, ho.visits⟩

theorem Accounted.andThen {o : Observed α} {f : α → Machine → Observed β}
    (ho : o.Accounted configs m)
    (hf : ∀ a n, m.store.instances.size ≤ n.store.instances.size →
      (m.store.Instrumented configs → n.store.Instrumented configs) →
      (f a n).Accounted configs n) : (o.andThen f).Accounted configs m := by
  obtain ⟨visits, result, n⟩ := o
  cases result with
  | none => exact ⟨ho.accounts, ho.visits⟩
  | some a =>
    have hfa := hf a n ho.accounts.size ho.accounts.store
    refine ⟨?_, fun v hv => ?_⟩
    · show m.Accounts configs _ ((visits ++ _).flatMap _)
      rw [List.flatMap_append]
      exact ho.accounts.trans hfa.accounts
    · rcases List.mem_append.mp hv with hv | hv
      · exact ho.visits v hv
      · exact hfa.visits v hv

/-- A visit and what follows its turn. -/
theorem Accounted.visit {o : Observed α} {v : Visit} (hv : v.Instrumented configs)
    (ht : v.machine.Accounts configs m' v.reports) (ho : o.Accounted configs m') :
    (o.after [v]).Accounted configs v.machine where
  accounts := ht.trans ho.accounts
  visits w hw := by
    rcases List.mem_cons.mp hw with rfl | hw
    · exact hv
    · exact ho.visits w hw

end Observed

theorem enter_scope_quiet (scope : CallScope) (m : Machine) : m.Quiet configs (scope.enter m) := by
  cases scope with
  | same => exact Machine.Quiet.refl m
  | fresh => exact Machine.Quiet.withContext m {}

theorem leave_scope_quiet (scope : CallScope) (c : Context) (m : Machine) :
    m.Quiet configs (scope.leave c m) := by
  cases scope with
  | same => exact Machine.Quiet.refl m
  | fresh => exact Machine.Quiet.withContext m c

theorem observeHost_accounted {invoke : Observe} (hi : Observe.Accounted configs invoke)
    (path : FramePath) (program : HostProgram) :
    program.Discreet configs → ∀ (count : Nat) (m : Machine), m.store.Instrumented configs →
      (observeHost invoke path program count m).Accounted configs m := by
  induction program with
  | finish result => exact fun _ _ m _ => .ended _ (Machine.Quiet.refl m)
  | fail failure => exact fun _ _ m _ => .ended _ (Machine.Quiet.refl m)
  | inspect next ih => exact fun hd count m hm => ih m (hd m) count m hm
  | update change next ih =>
    intro hd count m hm
    exact .mono (hd.1 m) (ih hd.2 count (change m) ((hd.1 m).store hm))
  | call scope target arguments next ih =>
    intro hd count m hm
    have hs : m.Quiet configs (scope.enter m) := enter_scope_quiet scope m
    have hcall := hi (count :: path) target arguments (scope.enter m) (hs.store hm)
    refine .andThen (.mono hs hcall) fun result n _ hn => ?_
    have hl : n.Quiet configs (scope.leave m.context n) := leave_scope_quiet scope m.context n
    exact .mono hl (ih result (hd result) (count + 1) _ (hl.store (hn hm)))

theorem observeCallHost_accounted {invoke : Observe} (hi : Observe.Accounted configs invoke)
    (path : FramePath) {program : HostProgram} (hd : program.Discreet configs)
    (hm : m.store.Instrumented configs) :
    (observeCallHost invoke path program m).Accounted configs m := by
  refine .andThen (observeHost_accounted hi path program hd 0 m hm) fun answer n _ _ => ?_
  cases answer with
  | ok result => exact .ended _ (Machine.Quiet.refl n)
  | error failure =>
    refine .ended _ (Machine.Quiet.of_instances_eq ?_ rfl)
    exact Machine.emit_reports_of_not n rfl

/-- What a whole frame reports, from what one turn reports. -/
theorem observeFrame_accounted (env : Environment) {invoke : Observe}
    (hi : Observe.Accounted configs invoke) (path : FramePath) {function : FunctionRef}
    {r : Running} (hr : r.Instrumented (configs function.inst) function.inst) (fuel : Nat) :
    ∀ (count : Nat) (s : FrameState) (m : Machine), m.store.Instrumented configs →
      function.inst < m.store.instances.size →
      (observeFrame env invoke path function r fuel count s m).Accounted configs m := by
  induction fuel with
  | zero => exact fun _ _ m _ _ => ⟨Machine.Quiet.refl m, fun _ hv => (by cases hv)⟩
  | succ fuel ih =>
    intro count s m hm hlt
    have hv : Visit.Instrumented configs ⟨path, function, r, s, m⟩ := ⟨hm, hlt, hr⟩
    have hturn := turn_accounts configs env.toObservers ⟨path, function, r, s, m⟩
    rw [observeFrame]
    refine Observed.Accounted.visit hv hturn ?_
    have hm' := hturn.store hm
    have hlt' := Nat.lt_of_lt_of_le hlt hturn.size
    dsimp only at hm' hlt' ⊢
    generalize turn env.toObservers r s m = t at hm' hlt' ⊢
    cases t with
    | next s' m' => exact ih (count + 1) s' m' hm' hlt'
    | done result m' => exact .ended result (Machine.Quiet.refl m')
    | wait target type s' m' =>
      refine .andThen (hi _ _ _ m' hm') fun result n hsize hn => ?_
      cases aborts result with
      | some kind => exact .ended _ (Machine.Quiet.refl n)
      | none => exact ih (count + 1) _ n (hn hm') (Nat.lt_of_lt_of_le hlt' hsize)

theorem observeBody_accounted {env : Environment} (hd : env.Discreet configs) {invoke : Observe}
    (hi : Observe.Accounted configs invoke) (fuel : Nat) (path : FramePath) (target : FunctionRef)
    (arguments : List Cell) (hm : m.store.Instrumented configs) :
    (observeBody env invoke fuel path target arguments m).Accounted configs m := by
  unfold observeBody
  cases hf : m.store.function? target with
  | none => exact .ended _ (Machine.Quiet.refl m)
  | some f =>
    dsimp only
    cases hb : f.body with
    | imported callee =>
      cases callee with
      | guest next => exact hi _ _ _ m hm
      | host id state => exact observeCallHost_accounted hi path (hd id _) hm
    | defined code instrumented =>
      obtain ⟨i, hinst, hfunc⟩ := Option.bind_eq_some_iff.mp hf
      obtain ⟨hfree, rfl⟩ := (hm _ i hinst).functions f (Array.mem_of_getElem? hfunc) _ _ hb
      exact observeFrame_accounted env hi path ⟨f, code, hfree, rfl⟩ fuel 0 _ m hm
        (Array.getElem?_eq_some_iff.mp hinst).1

/-- The reports of a run are those of the probes that its visits meet, in order, however far the
run is followed. -/
theorem observe_accounted {env : Environment} (hd : env.Discreet configs) (fuel : Nat) :
    Observe.Accounted configs (observe env fuel) := by
  induction fuel with
  | zero => exact fun _ _ _ m _ => ⟨Machine.Quiet.refl m, fun _ hv => (by cases hv)⟩
  | succ fuel ih =>
    intro path target arguments m hm
    unfold observe
    split
    · exact .ended _ (Machine.Quiet.refl m)
    split
    · exact .ended _ (Machine.Quiet.refl m)
    have henter : m.Quiet configs m.enter := .of_instances_eq rfl rfl
    refine .andThen (.mono henter
      (observeBody_accounted hd ih fuel path target arguments (henter.store hm))) ?_
    exact fun result n _ _ => .ended result (.of_instances_eq rfl rfl)

/-- A call leaves every instance as its settings ask for. -/
theorem execute_instrumented {env : Environment} (hd : env.Discreet configs) {fuel : Nat}
    {target : FunctionRef} {arguments : List Cell} {result : ExecutionResult}
    (hm : m.store.Instrumented configs)
    (h : execute env fuel target arguments m = some (result, m')) :
    m'.store.Instrumented configs := by
  rw [execute_eq_observe env fuel []] at h
  obtain ⟨a, -, ha⟩ := Option.map_eq_some_iff.mp h
  obtain ⟨-, rfl⟩ := Prod.mk.inj ha
  exact (observe_accounted hd fuel [] target arguments m hm).accounts.store hm

end

end WasmEngine
