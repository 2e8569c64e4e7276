import WasmEngine.Embedding
import WasmEngine.Proofs.Linking.History

/-!
# Orderly host functions

The host functions from which an embedder puts its interface together are orderly: they write into
entities and grow them, and leave everything else in a store alone.
-/
namespace WasmEngine
set_option autoImplicit false

/-- The host function is orderly, however it is called. -/
def HostFunction.Orderly (P : Module → Prop) (f : HostFunction) : Prop :=
  ∀ call m, HostProgram.Orderly P (f call) m

namespace HostFunction

variable {P : Module → Prop}

/-- An effect is orderly if its change is. -/
theorem effect_orderly {f : HostCall → Machine → Machine}
    (hf : ∀ (call : HostCall) (m : Machine), m.store.LeadsTo P (f call m).store) :
    (effect f).Orderly P :=
  fun call m => ⟨hf call m, trivial⟩

/-- Growing is orderly if the growth is a change. -/
theorem growing_orderly {address? : Store → InstanceId → Option Nat}
    {grow : Store → Nat → Nat → Option Nat × Store}
    (hg : ∀ s a delta, Store.Change P s (grow s a delta).2) :
    (growing address? grow).Orderly P := by
  intro call m
  unfold growing HostProgram.Orderly
  dsimp only
  split
  · trivial
  · exact ⟨(hg m.store _ _).leadsTo, trivial⟩

theorem setGlobal_orderly (index : Nat) : (setGlobal index).Orderly P := by
  refine effect_orderly fun call m => ?_
  split
  · next a _ => exact (Store.Change.write (m.store.setGlobal_sameShape a _)).leadsTo
  · exact .refl P m.store

theorem poke_orderly (binding : MemoryBinding) : (poke binding).Orderly P := by
  intro call m
  unfold poke
  cases binding.address with
  | none => trivial
  | some a =>
    dsimp only [HostProgram.Orderly]
    split
    · have hwrite := m.store.updateMemory_sameShape a fun x =>
        x.write_shape (call.argument 0).index 1 (call.argument 1).toNat
      exact ⟨(Store.Change.write hwrite).leadsTo, trivial⟩
    · trivial

theorem Offered.orderly {f : HostFunction} (h : f.Offered) : f.Orderly P := by
  cases h with
  | constant result => exact fun _ _ => trivial
  | failing failure => exact fun _ _ => trivial
  | computed f => exact fun _ _ => trivial
  | depth => exact fun _ _ => trivial
  | ticks => exact fun _ _ => trivial
  | steps => exact fun _ _ => trivial
  | setTicks => exact effect_orderly fun _ m => .refl P m.store
  | setMetering metering => exact effect_orderly fun _ m => .refl P m.store
  | setInterrupt flag => exact effect_orderly fun _ m => .refl P m.store
  | count =>
    intro call m
    have hwrite := m.store.setHostState_sameShape call.self
    exact ⟨(Store.Change.write (hwrite _)).leadsTo, trivial⟩
  | forward scope func => exact fun _ _ _ _ _ => trivial
  | growMemory => exact growing_orderly fun _ => Store.Change.growMemory
  | growTable => exact growing_orderly fun _ => Store.Change.growTable
  | setGlobal index => exact setGlobal_orderly index
  | poke binding => exact poke_orderly binding

end HostFunction

/-- An interface put together from the host functions on offer is orderly: through it a guest does
to the store nothing that the embedder may not do. -/
theorem Environment.Offered.orderly {P : Module → Prop} {env : Environment} (h : env.Offered) :
    env.Orderly P :=
  fun id call m => (h id).orderly call m

end WasmEngine
