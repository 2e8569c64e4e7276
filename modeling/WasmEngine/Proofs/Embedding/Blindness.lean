import WasmEngine.Embedding
import WasmEngine.Proofs.Instrumentation.Simulation

/-!
# Blind host functions

The host functions from which an embedder puts its interface together do not see who observes a
run. They read entities, contexts and their own private state, and what they change, they change in
the same way whatever is observed.
-/
namespace WasmEngine
set_option autoImplicit false

/-- The host function is blind, however it is called. -/
def HostFunction.Blind (f : HostFunction) : Prop := ∀ call, HostProgram.Blind (f call)

section
variable {watched : Nat → Bool} {s s' : Store}

theorem growTable_view (h : s.view watched = s'.view watched) (a : TableAddr) (delta : Nat) :
    (s.growTable a delta).1 = (s'.growTable a delta).1 ∧
      (s.growTable a delta).2.view watched = (s'.growTable a delta).2.view watched := by
  unfold Store.growTable
  rw [Store.tables_eq h]
  split
  · exact ⟨rfl, Store.updateTable_view h a _⟩
  · exact ⟨rfl, h⟩

/-- The private state of a host function, read off the view of the function. -/
def FunctionView.hostState? (v : FunctionView) : Option Nat :=
  match v.body with
  | .imported (.host _ state) => some state
  | _ => none

theorem hostState?_eq_view (s : Store) (f : FunctionRef) :
    s.hostState? f = ((s.function? f).map FunctionInstance.view).bind FunctionView.hostState? := by
  unfold Store.hostState?
  rcases s.function? f with _ | ⟨type, name, index, (next | ⟨id, state⟩) | ⟨code, instrumented⟩⟩ <;>
    rfl

/-- The function with a new private state, if it is a host function. -/
def FunctionView.withHostState (state : Nat) (v : FunctionView) : FunctionView :=
  match v.body with
  | .imported (.host id _) => { v with body := .imported (.host id state) }
  | _ => v

/-- A change of one entry commutes with a map that takes the change `f` to the change `g`. -/
theorem map_modify_comm {α β : Type} {e : α → β} {f : α → α} {g : β → β}
    (h : ∀ x, e (f x) = g (e x)) (l : Array α) (k : Nat) :
    (l.modify k f).map e = (l.map e).modify k g := by
  apply Array.ext_getElem?
  intro n
  rw [Array.getElem?_map, Array.getElem?_modify, Array.getElem?_modify, Array.getElem?_map]
  split
  · cases l[n]? with
    | none => rfl
    | some x => exact congrArg some (h x)
  · rfl

theorem setHostState_view_eq (s : Store) (f : FunctionRef) (state : Nat) :
    (s.setHostState f state).view watched =
      { s.view watched with instances := (s.view watched).instances.modify f.inst fun i =>
          { i with functions := i.functions.modify f.func (FunctionView.withHostState state) } } := by
  simp only [Store.view, Store.setHostState, StoreView.mk.injEq, true_and]
  refine map_modify_comm (fun i => ?_) s.instances f.inst
  simp only [ModuleInstance.view, InstanceView.mk.injEq, true_and, and_true]
  -- The view of a function is changed by the change that is made to the function.
  refine map_modify_comm (fun g => ?_) i.functions f.func
  obtain ⟨type, name, index, (next | ⟨id, old⟩) | ⟨code, instrumented⟩⟩ := g <;> rfl

theorem setHostState_view (h : s.view watched = s'.view watched) (f : FunctionRef) (state : Nat) :
    (s.setHostState f state).view watched = (s'.setHostState f state).view watched := by
  rw [setHostState_view_eq, setHostState_view_eq, h]

end

namespace HostFunction

/-- A query is blind if its answer is the same in machines with equal views. -/
theorem query_blind {f : Machine → Cell}
    (hf : ∀ watched m m', Machine.view watched m = Machine.view watched m' → f m = f m') :
    (query f).Blind := by
  refine fun _ => ⟨fun watched m m' h => ?_, fun _ => trivial⟩
  show HostProgram.finish (.value (f m)) = .finish (.value (f m'))
  rw [hf watched m m' h]

/-- An effect is blind if it takes equal views to equal views. -/
theorem effect_blind {f : HostCall → Machine → Machine}
    (hf : ∀ call watched m m', Machine.view watched m = Machine.view watched m' →
      (f call m).view watched = (f call m').view watched) : (effect f).Blind :=
  fun call => ⟨hf call, trivial⟩

/-- A query of the context is blind: equal views have the context in common. -/
theorem contextQuery_blind (f : Context → Cell) : (query fun m => f m.context).Blind := by
  apply query_blind
  intro watched m m' h
  rw [Machine.context_eq h]

theorem contextEffect_blind (f : HostCall → Context → Context) :
    (effect fun call m => m.withContext (f call m.context)).Blind := by
  apply effect_blind
  intro call watched m m' h
  rw [Machine.context_eq h]
  exact Machine.withContext_view h _

theorem count_blind : count.Blind := by
  intro call
  refine ⟨fun watched m m' h => ?_, fun m => ⟨fun watched n n' h => ?_, trivial⟩⟩
  · have hc : m.store.hostState? call.self = m'.store.hostState? call.self := by
      rw [hostState?_eq_view, hostState?_eq_view,
        Store.function?_view_eq (Machine.store_view_eq h) call.self]
    dsimp only
    rw [hc]
  · exact Machine.updateStore_view h (setHostState_view (Machine.store_view_eq h) _ _)

/-- Growing is blind if the address and the growth are the same in stores with equal views. -/
theorem growing_blind {address? : Store → InstanceId → Option Nat}
    {grow : Store → Nat → Nat → Option Nat × Store}
    (ha : ∀ watched s s' i, Store.view watched s = Store.view watched s' →
      address? s i = address? s' i)
    (hg : ∀ watched s s' a delta, Store.view watched s = Store.view watched s' →
      (grow s a delta).1 = (grow s' a delta).1 ∧
        (grow s a delta).2.view watched = (grow s' a delta).2.view watched) :
    (growing address? grow).Blind := by
  intro call
  refine ⟨fun watched m m' h => ?_, fun m => ?_⟩
  · have hs := Machine.store_view_eq h
    dsimp only
    rw [ha watched _ _ call.self.inst hs]
    split
    · rfl
    · rw [(hg watched _ _ _ _ hs).1]
  · dsimp only
    split
    · trivial
    · exact ⟨fun watched n n' h =>
        Machine.updateStore_view h (hg watched _ _ _ _ (Machine.store_view_eq h)).2, trivial⟩

theorem setGlobal_blind (index : Nat) : (setGlobal index).Blind := by
  refine effect_blind fun call watched m m' h => ?_
  rw [Store.globalOf?_eq (Machine.store_view_eq h)]
  split
  · exact Machine.updateStore_view h (Store.setGlobal_view (Machine.store_view_eq h) _ _)
  · exact h

theorem poke_blind (binding : MemoryBinding) : (poke binding).Blind := by
  intro call
  unfold poke
  cases binding.address with
  | none => trivial
  | some a =>
    refine ⟨fun watched m m' h => ?_, fun m => ?_⟩
    · dsimp only
      rw [Store.memories_eq (Machine.store_view_eq h)]
    · dsimp only
      split
      · exact ⟨fun watched n n' h => Machine.updateStore_view h
          (Store.updateMemory_view (Machine.store_view_eq h) _ _), trivial⟩
      · trivial

theorem Offered.blind {f : HostFunction} (h : f.Offered) : f.Blind := by
  cases h with
  | constant result => exact fun _ => trivial
  | failing failure => exact fun _ => trivial
  | computed f => exact fun _ => trivial
  | depth => exact contextQuery_blind fun context => Cell.ofLow (BitVec.ofNat 32 context.depth)
  | ticks => exact contextQuery_blind fun context => context.ticks.toBitVec
  | steps => exact contextQuery_blind fun context => context.steps.toBitVec
  | setTicks =>
    exact contextEffect_blind fun call context =>
      { context with ticks := .ofBitVec (call.argument 0) }
  | setMetering metering => exact contextEffect_blind fun _ context => { context with metering }
  | setInterrupt flag =>
    apply effect_blind
    intro call watched m m' h
    exact congrArg (fun v : MachineView => { v with interruptFlag := flag }) h
  | count => exact count_blind
  | forward scope func => exact fun _ _ => trivial
  | growMemory =>
    apply growing_blind
    · exact fun _ _ _ i h => Store.memoryOf?_eq h i
    · exact fun _ _ _ a delta h => Store.growMemory_view h a delta
  | growTable =>
    apply growing_blind
    · exact fun _ _ _ i h => Store.tableOf?_eq h i
    · exact fun _ _ _ a delta h => growTable_view h a delta
  | setGlobal index => exact setGlobal_blind index
  | poke binding => exact poke_blind binding

end HostFunction

/-- An interface put together from the host functions on offer cannot tell who observes it. -/
theorem Environment.Offered.blind {env : Environment} (h : env.Offered) : env.Blind :=
  fun id call => (h id).blind call

end WasmEngine
