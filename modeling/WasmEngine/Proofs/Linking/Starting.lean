import WasmEngine.Proofs.Execution.Stages
import WasmEngine.Proofs.Linking.Allocation

/-!
# How instantiation ends

The five ends of an instantiation, each with the machine it leaves: the instance cannot be
allocated, its segments have no place, it has no start function, or its start function returns or
traps.
-/
namespace WasmEngine
set_option autoImplicit false

namespace Allocation

variable (a : Allocation) (config : EngineConfig) (p : Placement) (m : Machine)

/-- The machine with the new instance and its segments written. -/
def initialized : Machine :=
  (m.notify (a.notices config)).updateStore fun _ =>
    p.write a.id a.inst.memories.head? a.inst.tables.head? a.store

/-- The call of the start function, in a context of its own. -/
def startCall (start : Nat) : Call :=
  ⟨⟨a.id, start⟩, [], (a.initialized config p m).withContext {}⟩

/-- What is left of the machine `n` in which the start function trapped. -/
def abandoned (start : Nat) (kind : TrapKind) (n : Machine) : Machine :=
  let name := ((a.inst.functions[start]?).map (·.name)).getD ""
  let m := (n.withContext m.context).emit (.notice (.startTrapped name kind))
  if a.inst.module.importCount .table ≠ 0 then m.updateStore (p.retain a.inst.tables.head?) else m

end Allocation

/-- The ends of an instantiation. -/
inductive Instantiates (env : Environment) (fuel : Nat) (module : Module) (entities : List Entity)
    (config : EngineConfig) (m : Machine) : Except InstantiationError InstanceId → Machine → Prop
  | unallocated {e : LinkError} (ha : allocate m.store module entities config = .error e) :
      Instantiates env fuel module entities config m (.error (.link e)) m
  | unplaced {a : Allocation} {e : LinkError}
      (ha : allocate m.store module entities config = .ok a)
      (hp : a.place (Module.importedGlobals m.store entities) = .error e) :
      Instantiates env fuel module entities config m (.error (.link e)) (m.notify (a.notices config))
  | ready {a : Allocation} {p : Placement} (ha : allocate m.store module entities config = .ok a)
      (hp : a.place (Module.importedGlobals m.store entities) = .ok p) (hs : module.start = none) :
      Instantiates env fuel module entities config m (.ok a.id) (a.initialized config p m)
  | started {a : Allocation} {p : Placement} {start : Nat} {result : ExecutionResult} {n : Machine}
      (ha : allocate m.store module entities config = .ok a)
      (hp : a.place (Module.importedGlobals m.store entities) = .ok p)
      (hs : module.start = some start)
      (hc : (a.startCall config p m start).answer env fuel = some (result, n))
      (hr : ∀ kind, result ≠ .trap kind) :
      Instantiates env fuel module entities config m (.ok a.id)
        (n.withContext (a.initialized config p m).context)
  | trapped {a : Allocation} {p : Placement} {start : Nat} {kind : TrapKind} {n : Machine}
      (ha : allocate m.store module entities config = .ok a)
      (hp : a.place (Module.importedGlobals m.store entities) = .ok p)
      (hs : module.start = some start)
      (hc : (a.startCall config p m start).answer env fuel = some (.trap kind, n)) :
      Instantiates env fuel module entities config m (.error (.startTrapped kind))
        (a.abandoned p (a.initialized config p m) start kind n)

section
variable {env : Environment} {fuel : Nat} {module : Module} {entities : List Entity}
  {config : EngineConfig} {m m' : Machine} {result : Except InstantiationError InstanceId}

/-- Instantiation ends in one of these ways. -/
theorem instantiate_ends (h : instantiate env fuel module entities config m = some (result, m')) :
    Instantiates env fuel module entities config m result m' := by
  unfold instantiate at h
  cases ha : allocate m.store module entities config with
  | error e =>
    rw [ha] at h
    obtain ⟨rfl, rfl⟩ := Prod.mk.inj (Option.some.inj h)
    exact .unallocated ha
  | ok a =>
    rw [ha] at h
    dsimp only at h
    cases hp : a.place (Module.importedGlobals m.store entities) with
    | error e =>
      rw [hp] at h
      obtain ⟨rfl, rfl⟩ := Prod.mk.inj (Option.some.inj h)
      exact .unplaced ha hp
    | ok p =>
      rw [hp] at h
      dsimp only at h
      cases hs : module.start with
      | none =>
        rw [hs] at h
        obtain ⟨rfl, rfl⟩ := Prod.mk.inj (Option.some.inj h)
        exact .ready ha hp hs
      | some start =>
        rw [hs] at h
        dsimp only [runStart] at h
        cases hc : (a.startCall config p m start).answer env fuel with
        | none =>
          rw [Call.answer, Allocation.startCall, Allocation.initialized] at hc
          rw [hc] at h
          cases h
        | some answer =>
          obtain ⟨x, n⟩ := answer
          have hx := hc
          rw [Call.answer, Allocation.startCall, Allocation.initialized] at hx
          rw [hx] at h
          cases x with
          | void =>
            obtain ⟨rfl, rfl⟩ := Prod.mk.inj (Option.some.inj h)
            exact .started ha hp hs hc (fun _ => nofun)
          | value c =>
            obtain ⟨rfl, rfl⟩ := Prod.mk.inj (Option.some.inj h)
            exact .started ha hp hs hc (fun _ => nofun)
          | trap kind =>
            obtain ⟨rfl, rfl⟩ := Prod.mk.inj (Option.some.inj h)
            exact .trapped ha hp hs hc

/-- A linked instance whose start function traps is abandoned with the reason of the trap. -/
theorem instantiate_trapped {a : Allocation} {p : Placement} {start : Nat} {kind : TrapKind}
    {n : Machine} (ha : allocate m.store module entities config = .ok a)
    (hp : a.place (Module.importedGlobals m.store entities) = .ok p)
    (hs : module.start = some start)
    (hc : (a.startCall config p m start).answer env fuel = some (.trap kind, n)) :
    instantiate env fuel module entities config m = some (.error (.startTrapped kind),
      a.abandoned p (a.initialized config p m) start kind n) := by
  rw [Call.answer, Allocation.startCall, Allocation.initialized] at hc
  unfold instantiate
  rw [ha]
  dsimp only
  rw [hp, hs]
  dsimp only [runStart]
  rw [hc]
  rfl

end

end WasmEngine
