import WasmEngine.Embedding
import WasmEngine.Proofs.Instrumentation.Reports

/-!
# Discreet host functions

The host functions from which an embedder puts its interface together make no reports of their own
and leave the probes of every instance in place. Of an instance they change at most the private
state of a host function.
-/
namespace WasmEngine
set_option autoImplicit false

/-- The host function is discreet, however it is called. -/
def HostFunction.Discreet (configs : InstanceId → EngineConfig) (f : HostFunction) : Prop :=
  ∀ call, HostProgram.Discreet configs (f call)

section
variable {configs : InstanceId → EngineConfig}

theorem growTable_quiet (m : Machine) (a : TableAddr) (delta : Nat) :
    m.Quiet configs (m.updateStore fun s => (s.growTable a delta).2) := by
  refine .of_instances_eq rfl ?_
  show ((m.store.growTable a delta).2).instances = _
  unfold Store.growTable
  split <;> rfl

/-- An entry of a modified array is the modified one or was there before. -/
theorem mem_modify {α : Type} {l : Array α} {k : Nat} {f : α → α} {x : α} (h : x ∈ l.modify k f) :
    x ∈ l ∨ ∃ y ∈ l, x = f y := by
  obtain ⟨n, hn⟩ := Array.mem_iff_getElem?.mp h
  rw [Array.getElem?_modify] at hn
  split at hn
  · obtain ⟨y, hy, rfl⟩ := Option.map_eq_some_iff.mp hn
    exact .inr ⟨y, Array.mem_of_getElem? hy, rfl⟩
  · exact .inl (Array.mem_of_getElem? hn)

/-- A change of functions that leaves names and defined bodies alone keeps the probes in place. -/
theorem modify_instrumented {config : EngineConfig} {i : ModuleInstance}
    (h : i.Instrumented config) {f : FunctionInstance → FunctionInstance}
    (hf : ∀ g code instrumented, (f g).body = .defined code instrumented → f g = g) (k : Nat) :
    ModuleInstance.Instrumented config { i with functions := i.functions.modify k f } := by
  refine ⟨h.listener, h.tracer, fun x hx code instrumented hb => ?_⟩
  rcases mem_modify hx with hx | ⟨g, hg, rfl⟩
  · exact h.functions x hx code instrumented hb
  · have hsame := hf g code instrumented hb
    rw [hsame] at hb ⊢
    exact h.functions g hg code instrumented hb

theorem setHostState_quiet (m : Machine) (f : FunctionRef) (state : Nat) :
    m.Quiet configs (m.updateStore (·.setHostState f state)) where
  reports := (List.append_nil _).symm
  size := Nat.le_of_eq (Array.size_modify ..).symm
  store hm k i hk := by
    simp only [Machine.updateStore, Store.setHostState, Array.getElem?_modify] at hk
    split at hk
    · obtain ⟨j, hj, rfl⟩ := Option.map_eq_some_iff.mp hk
      refine modify_instrumented (hm k j hj) (fun g code instrumented hb => ?_) f.func
      obtain ⟨type, name, index, (next | ⟨id, old⟩) | ⟨code', instrumented'⟩⟩ := g
      · rfl
      · cases hb
      · rfl
    · exact hm k i hk

namespace HostFunction

/-- An effect is discreet if it makes no reports and leaves the probes in place. -/
theorem effect_discreet {f : HostCall → Machine → Machine}
    (hf : ∀ (call : HostCall) (m : Machine), m.Quiet configs (f call m)) :
    (effect f).Discreet configs :=
  fun call => ⟨hf call, trivial⟩

/-- Growing is discreet if the growth leaves the instances alone. -/
theorem growing_discreet {address? : Store → InstanceId → Option Nat}
    {grow : Store → Nat → Nat → Option Nat × Store}
    (hg : ∀ (m : Machine) (a delta : Nat), m.Quiet configs (m.updateStore fun s => (grow s a delta).2)) :
    (growing address? grow).Discreet configs := by
  intro call m
  dsimp only
  split
  · trivial
  · exact ⟨fun n => hg n _ _, trivial⟩

theorem setGlobal_discreet (index : Nat) : (setGlobal index).Discreet configs := by
  refine effect_discreet fun call m => ?_
  split
  · exact Machine.Quiet.setGlobal ..
  · exact Machine.Quiet.refl m

theorem poke_discreet (binding : MemoryBinding) : (poke binding).Discreet configs := by
  intro call
  unfold poke
  cases binding.address with
  | none => trivial
  | some a =>
    intro m
    dsimp only
    split
    · exact ⟨fun n => Machine.Quiet.updateMemory n a _, trivial⟩
    · trivial

theorem Offered.discreet {f : HostFunction} (h : f.Offered) : f.Discreet configs := by
  cases h with
  | constant result => exact fun _ => trivial
  | failing failure => exact fun _ => trivial
  | computed f => exact fun _ => trivial
  | depth => exact fun _ _ => trivial
  | ticks => exact fun _ _ => trivial
  | steps => exact fun _ _ => trivial
  | setTicks => exact effect_discreet fun _ _ => Machine.Quiet.withContext ..
  | setMetering metering => exact effect_discreet fun _ _ => Machine.Quiet.withContext ..
  | setInterrupt flag => exact effect_discreet fun _ _ => .of_instances_eq rfl rfl
  | count => exact fun _ _ => ⟨fun n => setHostState_quiet n _ _, trivial⟩
  | forward scope func => exact fun _ _ => trivial
  | growMemory => exact growing_discreet Machine.Quiet.growMemory
  | growTable => exact growing_discreet growTable_quiet
  | setGlobal index => exact setGlobal_discreet index
  | poke binding => exact poke_discreet binding

end HostFunction

theorem Environment.Offered.discreet {env : Environment} (h : env.Offered) :
    env.Discreet configs :=
  fun id call => (h id).discreet call

end

end WasmEngine
