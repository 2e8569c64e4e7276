import WasmEngine.Proofs.Execution.Depth
import WasmEngine.Proofs.Linking.Changes

/-!
# Runs as histories of changes

A run changes a store by its instructions and by its host functions. If the host functions make
changes of the same kinds only, the store at every instruction and at the end comes from the first
one by such changes, whether the run ends or not; and so does the store that an instantiation
leaves.
-/
namespace WasmEngine
set_option autoImplicit false

/-- In the machine, and whatever the calls that it makes come to, the program makes changes only in
which the modules that are linked have the property `P`. -/
def HostProgram.Orderly (P : Module → Prop) : HostProgram → Machine → Prop
  | .finish _, _ => True
  | .fail _, _ => True
  | .inspect next, m => (next m).Orderly P m
  | .update change next, m =>
    m.store.LeadsTo P (change m).store ∧ next.Orderly P (change m)
  | .call _ _ _ next, m =>
    ∀ result m', m.store.LeadsTo P m'.store → (next result).Orderly P m'

/-- The host functions are orderly, however and wherever they are called. -/
def Environment.Orderly (P : Module → Prop) (env : Environment) : Prop :=
  ∀ id call m, (env.host id call).Orderly P m

/-- All that is seen of a computation comes from the store `s`. -/
structure Observed.Follows {α : Type} (P : Module → Prop) (s : Store) (o : Observed α) : Prop where
  visits : ∀ v ∈ o.visits, s.LeadsTo P v.machine.store
  machine : s.LeadsTo P o.machine.store

/-- The calls that are made follow from the stores they are made in. -/
def Observe.Follows (P : Module → Prop) (invoke : Observe) : Prop :=
  ∀ path target arguments m, (invoke path target arguments m).Follows P m.store

section
variable {P : Module → Prop} {s s' : Store} {α β : Type} {o : Observed α}

theorem follows_ended {a : α} {m : Machine} (h : s.LeadsTo P m.store) :
    (Observed.ended a m).Follows P s :=
  ⟨fun _ hv => (by cases hv), h⟩

theorem follows_unfinished {m : Machine} (h : s.LeadsTo P m.store) :
    (Observed.unfinished m : Observed α).Follows P s :=
  ⟨fun _ hv => (by cases hv), h⟩

theorem Observed.Follows.of_leadsTo (h : o.Follows P s') (hs : s.LeadsTo P s') :
    o.Follows P s :=
  ⟨fun v hv => hs.trans (h.visits v hv), hs.trans h.machine⟩

theorem Observed.Follows.after {v : Visit} (h : o.Follows P s) (hv : s.LeadsTo P v.machine.store) :
    (o.after [v]).Follows P s :=
  ⟨List.forall_mem_cons.mpr ⟨hv, h.visits⟩, h.machine⟩

theorem Observed.Follows.andThen {f : α → Machine → Observed β} (h : o.Follows P s)
    (hf : ∀ a, (f a o.machine).Follows P o.machine.store) : (o.andThen f).Follows P s := by
  obtain ⟨visits, result, m⟩ := o
  cases result with
  | none => exact ⟨h.visits, h.machine⟩
  | some a =>
    obtain ⟨hvisits, hmachine⟩ := (hf a).of_leadsTo h.machine
    exact ⟨List.forall_mem_append.mpr ⟨h.visits, hvisits⟩, hmachine⟩

end

section
variable {P : Module → Prop} {env : Environment} {invoke : Observe}

theorem observeHost_follows (hinvoke : invoke.Follows P) (path : FramePath)
    (program : HostProgram) : ∀ (count : Nat) (m : Machine), program.Orderly P m →
      (observeHost invoke path program count m).Follows P m.store := by
  induction program with
  | finish result => exact fun _ m _ => follows_ended (.refl P m.store)
  | fail failure => exact fun _ m _ => follows_ended (.refl P m.store)
  | inspect next ih => exact fun count m h => ih m count m h
  | update change next ih => exact fun count m h => (ih count (change m) h.2).of_leadsTo h.1
  | call scope target arguments next ih =>
    intro count m h
    have hcall := hinvoke (count :: path) target arguments (scope.enter m)
    rw [CallScope.enter_store] at hcall
    refine hcall.andThen fun result => ?_
    -- the host goes on in its own context, but in the store that the call has left
    have hleave := CallScope.leave_store scope m.context
      (invoke (count :: path) target arguments (scope.enter m)).machine
    rw [← hleave]
    refine ih result (count + 1) _ (h result _ ?_)
    rw [hleave]
    exact hcall.machine

theorem observeCallHost_follows (hinvoke : invoke.Follows P) (path : FramePath)
    {program : HostProgram} {m : Machine} (h : program.Orderly P m) :
    (observeCallHost invoke path program m).Follows P m.store := by
  refine (observeHost_follows hinvoke path program 0 m h).andThen fun answer => ?_
  cases answer with
  | ok result => exact follows_ended (.refl P _)
  | error failure => exact follows_ended (.refl P _)

theorem observeFrame_follows (hinvoke : invoke.Follows P) (path : FramePath)
    (function : FunctionRef) (r : Running) (fuel : Nat) :
    ∀ (count : Nat) (s : FrameState) (m : Machine),
      (observeFrame env invoke path function r fuel count s m).Follows P m.store := by
  induction fuel with
  | zero => exact fun _ _ m => follows_unfinished (.refl P m.store)
  | succ fuel ih =>
    intro count s m
    have hturn := turn_leadsTo P env.toObservers r s m
    refine Observed.Follows.after ?_ (.refl P m.store)
    cases ht : turn env.toObservers r s m with
    | next s' m' =>
      rw [ht] at hturn
      exact (ih (count + 1) s' m').of_leadsTo hturn
    | done result m' =>
      rw [ht] at hturn
      exact follows_ended hturn
    | wait target type s' m' =>
      rw [ht] at hturn
      refine ((hinvoke (count :: path) target _ m').andThen fun result => ?_).of_leadsTo hturn
      split
      · exact follows_ended (.refl P _)
      · exact ih (count + 1) (s'.resume type result) _

/-- Whatever a run comes to, it has come there by changes. -/
theorem observe_follows (henv : env.Orderly P) (fuel : Nat) : (observe env fuel).Follows P := by
  induction fuel with
  | zero => exact fun _ _ _ m => follows_unfinished (.refl P m.store)
  | succ fuel ih =>
    intro path target arguments m
    unfold observe
    split
    · exact follows_ended (.refl P m.store)
    split
    · exact follows_ended (.refl P m.store)
    have hbody : (observeBody env (observe env fuel) fuel path target arguments m.enter).Follows P
        m.store := by
      unfold observeBody
      split
      · exact follows_ended (.refl P m.store)
      split
      · exact ih (0 :: path) _ arguments m.enter
      · exact observeCallHost_follows ih path (henv _ _ m.enter)
      · exact observeFrame_follows ih path target _ fuel 0 _ m.enter
    exact hbody.andThen fun result => follows_ended (.refl P _)

theorem execute_leadsTo (henv : env.Orderly P) {fuel : Nat} {target : FunctionRef}
    {arguments : List Cell} {m n : Machine} {result : ExecutionResult}
    (h : execute env fuel target arguments m = some (result, n)) :
    m.store.LeadsTo P n.store := by
  rw [execute_eq_observe env fuel []] at h
  obtain ⟨_, -, he⟩ := Option.map_eq_some_iff.mp h
  obtain ⟨-, rfl⟩ := Prod.mk.inj he
  exact (observe_follows henv fuel [] target arguments m).machine

/-- So has all that an orderly host function finds. -/
theorem programMachines_leadsTo (henv : env.Orderly P) (fuel : Nat) {program : HostProgram}
    {m : Machine} (h : program.Orderly P m) :
    ∀ n ∈ programMachines (execute env fuel) program m, m.store.LeadsTo P n.store := by
  induction program generalizing m with
  | finish result => exact List.forall_mem_singleton.mpr (Store.LeadsTo.refl P m.store)
  | fail failure => exact List.forall_mem_singleton.mpr (Store.LeadsTo.refl P m.store)
  | inspect next ih => exact List.forall_mem_cons.mpr ⟨Store.LeadsTo.refl P m.store, ih m h⟩
  | update change next ih =>
    refine List.forall_mem_cons.mpr ⟨Store.LeadsTo.refl P m.store, fun n hn => ?_⟩
    exact h.1.trans (ih h.2 n hn)
  | call scope target arguments next ih =>
    unfold programMachines
    refine List.forall_mem_cons.mpr ⟨Store.LeadsTo.refl P m.store, fun n hn => ?_⟩
    split at hn
    · cases hn
    · next result m' ha =>
      have hcall := execute_leadsTo henv ha
      rw [CallScope.enter_store, ← CallScope.leave_store scope m.context m'] at hcall
      exact hcall.trans (ih result (h result _ hcall) n hn)

end

section
variable {P : Module → Prop} {env : Environment} {fuel : Nat} {module : Module}
  {entities : List Entity} {config : EngineConfig} {m m' : Machine}
  {result : Except InstantiationError InstanceId}

/-- An instantiation leaves the store alone, or it goes on from the one with the new instance: it
writes the segments and runs the start function. -/
theorem instantiate_cases (henv : ∀ start, module.start = some start → env.Orderly P)
    (h : instantiate env fuel module entities config m = some (result, m')) :
    (m'.store = m.store ∧ ∃ e, result = .error (.link e)) ∨
      ∃ a, allocate m.store module entities config = .ok a ∧
        (∀ id, result = .ok id → id = a.id) ∧ a.store.LeadsTo P m'.store := by
  have hready : ∀ (a : Allocation) (p : Placement),
      a.store.LeadsTo P (a.initialized config p m).store := fun a p =>
    (Store.Change.write (write_sameShape p _ _ _ a.store)).leadsTo
  have hstart : ∀ {a : Allocation} {p : Placement} {start : Nat} {x : ExecutionResult}
      {n : Machine}, module.start = some start → (a.startCall config p m start).answer env fuel = some (x, n) →
        a.store.LeadsTo P n.store := fun {a p start x n} hs hc =>
    (hready a p).trans
      (execute_leadsTo (m := (a.startCall config p m start).machine) (henv start hs) hc)
  cases instantiate_ends h with
  | unallocated => exact .inl ⟨rfl, _, rfl⟩
  | unplaced =>
    rw [notify_eq]
    exact .inl ⟨rfl, _, rfl⟩
  | @ready a p ha =>
    refine .inr ⟨a, ha, ?_, hready a p⟩
    rintro _ ⟨⟩
    rfl
  | @started a p start x n ha _ hs hc =>
    have hrun := hstart hs hc
    refine .inr ⟨a, ha, ?_, hrun⟩
    rintro _ ⟨⟩
    rfl
  | @trapped a p start kind n ha _ hs hc =>
    refine .inr ⟨a, ha, fun _ => nofun, ?_⟩
    have hrun := hstart hs hc
    rw [(abandoned_eq a p start kind n).2]
    split
    · exact hrun.trans (Store.Change.write (retain_sameShape p _ n.store)).leadsTo
    · exact hrun

theorem instantiate_leadsTo (henv : ∀ start, module.start = some start → env.Orderly P)
    (hm : P module) (h : instantiate env fuel module entities config m = some (result, m')) :
    m.store.LeadsTo P m'.store := by
  obtain ⟨hstore, -⟩ | ⟨a, ha, -, hrest⟩ := instantiate_cases henv h
  · rw [hstore]
    exact .refl P m.store
  · exact (Store.Change.link hm ha).leadsTo.trans hrest

end

end WasmEngine
