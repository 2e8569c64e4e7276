import WasmEngine.Proofs.Embedding.Blindness
import WasmEngine.Proofs.Instrumentation.Installation
import WasmEngine.Proofs.Instrumentation.Simulation

/-!
# Instrumentation is transparent

Instances made of one module under settings that differ in instrumentation and tracing only behave
the same. Both instantiations end in the same way, and no later call tells them apart: results,
contents of the store, contexts and the memory accesses that a common tracer is told of agree.
-/
namespace WasmEngine
set_option autoImplicit false

/-- Settings that differ in instrumentation and tracing only. -/
structure EngineConfig.SameLimits (config config' : EngineConfig) : Prop where
  pages : config.pagesLimit = config'.pagesLimit
  elements : config.elementsLimit = config'.elementsLimit

section
variable {watched : Nat → Bool} {config config' : EngineConfig} {module : Module}

theorem definedFunctions_view_eq (config config' : EngineConfig) (h : module.ProbeFree)
    (firstIndex : Nat) :
    (module.definedFunctions config firstIndex).map FunctionInstance.view =
      (module.definedFunctions config' firstIndex).map FunctionInstance.view := by
  apply List.ext_getElem?
  intro k
  simp only [Module.definedFunctions, List.getElem?_map, List.getElem?_mapIdx]
  cases hk : module.functions[k]? with
  | none => rfl
  | some f =>
    have hf := h f (List.mem_of_getElem? hk)
    have hinstr : ∀ (c : EngineConfig) (g : FunctionInstance) (name : String),
        (Running.ofFunction 0 g f.code (c.instrument? name f.code)).instruction =
          fun pc => f.code.instructions.getD pc .return_ :=
      fun c g name => funext (instrument?_faithful c 0 g name hf)
    simp only [Option.map_some, FunctionInstance.view, hinstr]

theorem exportMap_eq {id : InstanceId} {i i' : ModuleInstance}
    (h : i.view watched = i'.view watched) : module.exportMap id i = module.exportMap id i' := by
  have he : Module.exportedEntity id i = Module.exportedEntity id i' := by
    funext e
    have hf : (i.functions[e.index]?).map (·.type) = (i'.functions[e.index]?).map (·.type) := by
      have hv := congrArg (fun v => (v.functions[e.index]?).map FunctionView.type) h
      simp only [ModuleInstance.view, Array.getElem?_map, Option.map_map] at hv
      exact hv
    have ht : i.tables = i'.tables := congrArg InstanceView.tables h
    have hm : i.memories = i'.memories := congrArg InstanceView.memories h
    have hg : i.globals = i'.globals := congrArg InstanceView.globals h
    unfold Module.exportedEntity
    rw [hf, ht, hm, hg]
  unfold Module.exportMap
  rw [he]

theorem withExports_view {i i' : ModuleInstance} (h : i.view watched = i'.view watched)
    (exports : List (String × Entity)) :
    ModuleInstance.view watched { i with exports } =
      ModuleInstance.view watched { i' with exports } :=
  congrArg (fun v : InstanceView => { v with exports }) h

/-- Allocations that differ in what is observed only. -/
structure Allocation.Alike (watched : Nat → Bool) (a a' : Allocation) : Prop where
  store : a.store.view watched = a'.store.view watched
  id : a.id = a'.id
  inst : a.inst.view watched = a'.inst.view watched

theorem allocationOf_alike (s : Store) (entities : List Entity) (globals : List Global)
    (tables : List Table) (memories : List Memory) (hp : module.ProbeFree)
    (ht : config.tracer.filter watched = config'.tracer.filter watched) :
    (allocationOf s module entities config globals tables memories).Alike watched
      (allocationOf s module entities config' globals tables memories) := by
  have hbare : (bareInstance s module entities config globals tables memories).view watched =
      (bareInstance s module entities config' globals tables memories).view watched := by
    simp only [ModuleInstance.view, bareInstance, List.map_toArray, List.map_append,
      definedFunctions_view_eq config config' hp, ht]
  have hinst : (allocationOf s module entities config globals tables memories).inst.view watched =
      (allocationOf s module entities config' globals tables memories).inst.view watched := by
    dsimp only [allocationOf]
    rw [exportMap_eq hbare]
    exact withExports_view hbare _
  refine ⟨?_, rfl, hinst⟩
  have hpush := congrArg (fun v => (s.instances.map (ModuleInstance.view watched)).push v) hinst
  simp only [← Array.map_push] at hpush
  exact congrArg (fun v => StoreView.mk (s.memories ++ memories.toArray) (s.tables ++ tables.toArray)
    (s.globals ++ globals.toArray) v) hpush

/-- Results of linking that are the same error, or both successful and related. -/
inductive Agree {α : Type} (R : α → α → Prop) : Except LinkError α → Except LinkError α → Prop
  | error (e : LinkError) : Agree R (.error e) (.error e)
  | ok {a a' : α} (h : R a a') : Agree R (.ok a) (.ok a')

theorem allocate_agree (s : Store) (entities : List Entity) (hl : config.SameLimits config')
    (hp : module.ProbeFree) (ht : config.tracer.filter watched = config'.tracer.filter watched) :
    Agree (Allocation.Alike watched) (allocate s module entities config)
      (allocate s module entities config') := by
  rw [allocate_eq, allocate_eq, hl.pages, hl.elements]
  cases module.checkImports s entities with
  | error e => exact .error e
  | ok _ =>
    cases module.initialGlobals (Module.importedGlobals s entities) with
    | error e => exact .error e
    | ok globals =>
      cases module.newTables config'.elementsLimit with
      | error e => exact .error e
      | ok tables =>
        cases module.newMemories config'.pagesLimit with
        | error e => exact .error e
        | ok memories => exact .ok (allocationOf_alike s entities globals tables memories hp ht)

theorem place_eq {a a' : Allocation} (h : a.Alike watched a') (imported : List Global) :
    a.place imported = a'.place imported := by
  have hi : a.inst.module = a'.inst.module := congrArg InstanceView.module h.inst
  have hm : a.inst.memories = a'.inst.memories := congrArg InstanceView.memories h.inst
  have ht : a.inst.tables = a'.inst.tables := congrArg InstanceView.tables h.inst
  unfold Allocation.place
  rw [hi, hm, ht, Store.memories_eq h.store, Store.tables_eq h.store]

theorem foldl_view {α : Type} {f : Store → α → Store}
    (hf : ∀ s s' x, s.view watched = s'.view watched → (f s x).view watched = (f s' x).view watched)
    (l : List α) : ∀ {s s' : Store}, s.view watched = s'.view watched →
      (l.foldl f s).view watched = (l.foldl f s').view watched := by
  induction l with
  | nil => exact fun h => h
  | cons x rest ih => exact fun h => ih (hf _ _ x h)

theorem write_view (p : Placement) (id : InstanceId) (memory : Option MemoryAddr)
    (table : Option TableAddr) {s s' : Store} (h : s.view watched = s'.view watched) :
    (p.write id memory table s).view watched = (p.write id memory table s').view watched := by
  unfold Placement.write
  cases memory <;> cases table <;> dsimp only
  · exact h
  · refine foldl_view ?_ _ h
    exact fun _ _ _ h => Store.updateTable_view h _ _
  · refine foldl_view ?_ _ h
    exact fun _ _ _ h => Store.updateMemory_view h _ _
  · refine foldl_view ?_ _ (foldl_view ?_ _ h)
    · exact fun _ _ _ h => Store.updateTable_view h _ _
    · exact fun _ _ _ h => Store.updateMemory_view h _ _

theorem retain_view (p : Placement) (table : Option TableAddr) {s s' : Store}
    (h : s.view watched = s'.view watched) :
    (p.retain table s).view watched = (p.retain table s').view watched := by
  unfold Placement.retain
  cases table with
  | none => exact h
  | some a =>
    refine foldl_view ?_ _ h
    exact fun _ _ _ h => Store.updateTable_view h _ _

theorem replaceStore_view {m m' : Machine} (h : m.view watched = m'.view watched) {s s' : Store}
    (hs : s.view watched = s'.view watched) :
    (m.updateStore fun _ => s).view watched = (m'.updateStore fun _ => s').view watched :=
  Machine.updateStore_view h hs

theorem notify_view (notices : List Notice) :
    ∀ m : Machine, (m.notify notices).view watched = m.view watched := by
  induction notices with
  | nil => exact fun _ => rfl
  | cons n rest ih => exact fun m => (ih (m.emit (.notice n))).trans (Machine.emit_view rfl)

section
variable {env env' : Environment}

theorem runStart_answerView_eq (hhost : env.host = env'.host) (hb : env.Blind) (fuel : Nat)
    {a a' : Allocation} (ha : a.Alike watched a') (p : Placement) (start : Nat) {m m' : Machine}
    (h : m.view watched = m'.view watched) :
    answerView watched (runStart env fuel a p start m) =
      answerView watched (runStart env' fuel a' p start m') := by
  have hm : a.inst.module = a'.inst.module := congrArg InstanceView.module ha.inst
  have ht : a.inst.tables = a'.inst.tables := congrArg InstanceView.tables ha.inst
  have he := execute_answerView_eq hhost hb fuel ⟨a.id, start⟩ [] (Machine.withContext_view h {})
  unfold runStart
  rw [ha.id] at he
  rw [ha.id, hm, ht, Machine.context_eq h]
  dsimp only
  generalize execute env fuel ⟨a'.id, start⟩ [] (m.withContext {}) = x at he ⊢
  generalize execute env' fuel ⟨a'.id, start⟩ [] (m'.withContext {}) = x' at he ⊢
  rcases x with _ | ⟨result, n⟩ <;> rcases x' with _ | ⟨result', n'⟩
  · rfl
  · cases he
  · cases he
  obtain ⟨rfl, hn⟩ : result = result' ∧ n.view watched = n'.view watched := by
    simpa only [answerView, Option.map_some, Option.some.injEq, Prod.mk.injEq] using he
  have hcontext := Machine.withContext_view hn m'.context
  cases result with
  | void => exact answerView_some _ hcontext
  | value c => exact answerView_some _ hcontext
  | trap kind =>
    have hemit : ∀ name name', ((n.withContext m'.context).emit
        (.notice (.startTrapped name kind))).view watched =
        ((n'.withContext m'.context).emit (.notice (.startTrapped name' kind))).view watched := by
      intro name name'
      rw [Machine.emit_view rfl, Machine.emit_view rfl]
      exact hcontext
    have hret : ∀ name name', (((n.withContext m'.context).emit
        (.notice (.startTrapped name kind))).updateStore (p.retain a'.inst.tables.head?)).view watched =
        (((n'.withContext m'.context).emit
        (.notice (.startTrapped name' kind))).updateStore (p.retain a'.inst.tables.head?)).view watched :=
      fun name name' => Machine.updateStore_view (hemit name name')
        (retain_view p _ (Machine.store_view_eq (hemit name name')))
    dsimp only
    split
    · exact answerView_some _ (hret _ _)
    · exact answerView_some _ (hemit _ _)

/-- Instantiation ends in the same way under settings that differ in instrumentation and tracing
only, and leaves machines with equal views. -/
theorem instantiate_answerView_eq (hhost : env.host = env'.host) (hb : env.Blind) (fuel : Nat)
    (entities : List Entity) (hl : config.SameLimits config') (hp : module.ProbeFree)
    (ht : config.tracer.filter watched = config'.tracer.filter watched) (m : Machine) :
    answerView watched (instantiate env fuel module entities config m) =
      answerView watched (instantiate env' fuel module entities config' m) := by
  have ha := allocate_agree m.store entities hl hp ht
  unfold instantiate
  generalize allocate m.store module entities config = x at ha ⊢
  generalize allocate m.store module entities config' = x' at ha ⊢
  cases ha with
  | error e => rfl
  | @ok a a' ha =>
    have hn : (m.notify (a.notices config)).view watched =
        (m.notify (a'.notices config')).view watched := by rw [notify_view, notify_view]
    have hm : a.inst.memories = a'.inst.memories := congrArg InstanceView.memories ha.inst
    have ht : a.inst.tables = a'.inst.tables := congrArg InstanceView.tables ha.inst
    dsimp only
    rw [place_eq ha, hm, ht, ha.id]
    cases a'.place (Module.importedGlobals m.store entities) with
    | error e => exact answerView_some _ hn
    | ok p =>
      have hw := replaceStore_view hn
        (write_view p a'.id a'.inst.memories.head? a'.inst.tables.head? ha.store)
      dsimp only
      cases module.start with
      | none => exact answerView_some _ hw
      | some start => exact runStart_answerView_eq hhost hb fuel ha p start hw

end

end

/-- A call that an embedder makes from outside: with a context of its own, and the interrupt flag as
the embedder has set it. -/
structure GuestCall where
  target : FunctionRef
  arguments : List Cell
  context : Context := {}
  interruptFlag : Bool := false
  deriving DecidableEq, Inhabited

def GuestCall.prepare (c : GuestCall) (m : Machine) : Machine :=
  { m with context := c.context, interruptFlag := c.interruptFlag }

/-- The answers of calls made one after another, if all of them end. -/
def session (env : Environment) (fuel : Nat) :
    List GuestCall → Machine → Option (List (ExecutionResult × Machine))
  | [], _ => some []
  | c :: rest, m =>
    (execute env fuel c.target c.arguments (c.prepare m)).bind fun answer =>
      (session env fuel rest answer.2).map (answer :: ·)

/-- What an embedder finds in a machine after a call. -/
structure Snapshot where
  memories : Array Memory
  tables : Array Table
  globals : Array Global
  /-- The depth, the ticks and the steps among them. -/
  context : Context
  interruptFlag : Bool

def Machine.snapshot (m : Machine) : Snapshot where
  memories := m.store.memories
  tables := m.store.tables
  globals := m.store.globals
  context := m.context
  interruptFlag := m.interruptFlag

/-- The memory access that a tracer is told of. -/
def Event.accessTo? (tracer : Nat) : Event → Option (AccessKind × Nat × Nat)
  | .trace t (.access kind address width) => if t = tracer then some (kind, address, width) else none
  | _ => none

def Machine.accessesTo (tracer : Nat) (m : Machine) : List (AccessKind × Nat × Nat) :=
  m.journal.toList.filterMap (Event.accessTo? tracer)

section
variable {watched : Nat → Bool} {m m' : Machine}

theorem prepare_view (h : m.view watched = m'.view watched) (c : GuestCall) :
    (c.prepare m).view watched = (c.prepare m').view watched :=
  congrArg (fun v : MachineView => { v with context := c.context, interruptFlag := c.interruptFlag })
    h

theorem snapshot_eq (h : m.view watched = m'.view watched) : m.snapshot = m'.snapshot :=
  congrArg (fun v : MachineView =>
    Snapshot.mk v.store.memories v.store.tables v.store.globals v.context v.interruptFlag) h

/-- The accesses reported to a watched tracer are part of the view. -/
theorem accessesTo_eq_view {tracer : Nat} (ht : watched tracer = true) (m : Machine) :
    m.accessesTo tracer = (m.view watched).accesses.filterMap (Event.accessTo? tracer) := by
  unfold Machine.accessesTo Machine.view
  rw [List.filterMap_filter]
  congr 1
  funext e
  rcases e with _ | ⟨t, _ | _⟩ | _
  · rfl
  · rfl
  · by_cases h : t = tracer
    · subst h
      simp [Event.isAccess, ht]
    · simp [Event.accessTo?, h]
  · rfl

theorem accessesTo_eq {tracer : Nat} (ht : watched tracer = true)
    (h : m.view watched = m'.view watched) : m.accessesTo tracer = m'.accessesTo tracer := by
  rw [accessesTo_eq_view ht, accessesTo_eq_view ht, h]

variable {env env' : Environment}

theorem session_view_eq (hhost : env.host = env'.host) (hb : env.Blind) (fuel : Nat)
    (calls : List GuestCall) : ∀ {m m' : Machine}, m.view watched = m'.view watched →
      (session env fuel calls m).map (List.map fun e => (e.1, e.2.view watched)) =
        (session env' fuel calls m').map (List.map fun e => (e.1, e.2.view watched)) := by
  induction calls with
  | nil => exact fun _ => rfl
  | cons c rest ih =>
    intro m m' h
    have he := execute_answerView_eq hhost hb fuel c.target c.arguments (prepare_view h c)
    unfold session
    generalize execute env fuel c.target c.arguments (c.prepare m) = x at he ⊢
    generalize execute env' fuel c.target c.arguments (c.prepare m') = x' at he ⊢
    rcases x with _ | ⟨result, n⟩ <;> rcases x' with _ | ⟨result', n'⟩
    · rfl
    · cases he
    · cases he
    obtain ⟨rfl, hn⟩ : result = result' ∧ n.view watched = n'.view watched := by
      simpa only [answerView, Option.map_some, Option.some.injEq, Prod.mk.injEq] using he
    have hrest := congrArg (Option.map fun l => (result, n.view watched) :: l) (ih hn)
    simp only [Option.bind_some, Option.map_map, Function.comp_def, List.map_cons] at hrest ⊢
    rw [hrest, hn]

/-- What is read off the view of a machine is the same after every call of a session. -/
theorem session_reading_eq {α : Type} (hhost : env.host = env'.host) (hb : env.Blind) (fuel : Nat)
    (calls : List GuestCall) (h : m.view watched = m'.view watched) (read : Machine → α)
    (read' : MachineView → α) (hread : ∀ n, read n = read' (n.view watched)) :
    (session env fuel calls m).map (List.map fun e => (e.1, read e.2)) =
      (session env' fuel calls m').map (List.map fun e => (e.1, read e.2)) := by
  have hs := congrArg (Option.map (List.map fun e => (e.1, read' e.2)))
    (session_view_eq hhost hb fuel calls h)
  simp only [Option.map_map, List.map_map, Function.comp_def] at hs
  simpa only [hread] using hs

end

/-- The tracers that either both settings name or neither. -/
def commonTracer (config config' : EngineConfig) (tracer : Nat) : Bool :=
  decide (config.tracer = some tracer ↔ config'.tracer = some tracer)

theorem filter_commonTracer (config config' : EngineConfig) :
    config.tracer.filter (commonTracer config config') =
      config'.tracer.filter (commonTracer config config') := by
  unfold commonTracer
  cases config.tracer <;> cases config'.tracer <;> simp [Option.filter]
  grind

/-- Instrumentation is transparent. Take a module and settings that differ in instrumentation and
tracing only, with listeners and tracers that may fail, and host functions that do not look at them.
Instantiation ends in the same way; afterwards every session of calls has the same answers and leaves
the same contents and contexts after each call, and a tracer that both settings name is told of the
same memory accesses. Turn by turn, a body wrapped at its selected sites does what the body does. -/
theorem instrumentation_transparent (env env' : Environment) (hhost : env.host = env'.host)
    (hb : env.Blind) (module : Module) (hp : module.ProbeFree) (entities : List Entity)
    (config config' : EngineConfig) (hl : config.SameLimits config') (m : Machine) (fuel : Nat) :
    (instantiate env fuel module entities config m).map (·.1) =
        (instantiate env' fuel module entities config' m).map (·.1) ∧
      (∀ result₁ m₁ result₂ m₂,
        instantiate env fuel module entities config m = some (result₁, m₁) →
        instantiate env' fuel module entities config' m = some (result₂, m₂) →
        m₁.snapshot = m₂.snapshot ∧
          (∀ fuel calls,
            (session env fuel calls m₁).map (List.map fun e => (e.1, e.2.snapshot)) =
              (session env' fuel calls m₂).map (List.map fun e => (e.1, e.2.snapshot))) ∧
          ∀ tracer, (config.tracer = some tracer ↔ config'.tracer = some tracer) →
            m₁.accessesTo tracer = m₂.accessesTo tracer ∧
            ∀ fuel calls,
              (session env fuel calls m₁).map (List.map fun e => (e.1, e.2.accessesTo tracer)) =
                (session env' fuel calls m₂).map
                  (List.map fun e => (e.1, e.2.accessesTo tracer))) ∧
      ∀ f ∈ module.functions, ∀ (coverage : Option CoverageMode) (trace : Bool)
        (inst : InstanceId) (g : FunctionInstance) (watched : Nat → Bool) (s s' : FrameState)
        (n n' : Machine), s.Alike s' → n.view watched = n'.view watched →
        (turn env.toObservers (.ofFunction inst g f.code
            (some (.wrap f.code (ProbeSite.select f.code coverage trace (.build f.code))))) s n).Alike
          watched (turn env'.toObservers (.ofFunction inst g f.code none) s' n') := by
  have hview : ∀ watched, config.tracer.filter watched = config'.tracer.filter watched →
      answerView watched (instantiate env fuel module entities config m) =
        answerView watched (instantiate env' fuel module entities config' m) :=
    fun watched ht => instantiate_answerView_eq hhost hb fuel entities hl hp ht m
  refine ⟨?_, ?_, ?_⟩
  · have h := congrArg (Option.map Prod.fst) (hview _ (filter_commonTracer config config'))
    simpa only [answerView, Option.map_map, Function.comp_def] using h
  · intro result₁ m₁ result₂ m₂ h₁ h₂
    have h := hview _ (filter_commonTracer config config')
    rw [h₁, h₂] at h
    obtain ⟨-, hm⟩ : result₁ = result₂ ∧ m₁.view (commonTracer config config') =
        m₂.view (commonTracer config config') := by
      simpa only [answerView, Option.map_some, Option.some.injEq, Prod.mk.injEq] using h
    refine ⟨snapshot_eq hm, fun fuel calls => ?_, fun tracer ht => ?_⟩
    · exact session_reading_eq hhost hb fuel calls hm Machine.snapshot (fun v =>
        ⟨v.store.memories, v.store.tables, v.store.globals, v.context, v.interruptFlag⟩) fun _ => rfl
    · have hw : commonTracer config config' tracer = true := decide_eq_true ht
      exact ⟨accessesTo_eq hw hm, fun fuel calls =>
        session_reading_eq hhost hb fuel calls hm (Machine.accessesTo tracer)
          (fun v => v.accesses.filterMap (Event.accessTo? tracer)) (accessesTo_eq_view hw)⟩
  · intro f hf coverage trace inst g watched s s' n n' hs hn
    have hr : (Running.ofFunction inst g f.code (some (.wrap f.code
        (ProbeSite.select f.code coverage trace (.build f.code))))).Alike
        (.ofFunction inst g f.code none) := by
      refine ⟨rfl, rfl, rfl, rfl, funext fun pc => ?_⟩
      rw [ofFunction_wrap_faithful inst g (hp f hf) (ProbeSite.select_admits ..) pc,
        ofFunction_none_faithful inst g (hp f hf) pc]
      rfl
    exact turn_alike env.toObservers env'.toObservers hr hs hn

/-- Two iterations of a loop around a call of the host, counted down in a local. -/
def countdown : Module where
  types := [⟨[.i32], [.i32]⟩, ⟨[], [.i32]⟩]
  imports := [⟨"host", "grow", .function ⟨[.i32], [.i32]⟩⟩]
  functions := [{ type := 1, code := {
    instructions := #[.const .i32 2, .localSet 0, .loop, .const .i32 1, .call 0, .drop, .localGet 0,
      .const .i32 1, .binary (.int .i32 .sub), .localTee 0, .brIf ⟨2, 0⟩ 0, .end_, .localGet 0, .end_]
    locals := [.i32]
    maxHeight := 2 } }]

/-- Edges of all functions go to a listener, instructions and accesses to a tracer. -/
def fullyObserved : EngineConfig where
  instrumentation := { listener := some 0, mode := .edges }
  tracer := some 1
  traceInstructions := true

theorem countdown_transparent :
    let quiet : Environment := { host := fun _ => HostFunction.growMemory }
    let noisy : Environment :=
      { host := fun _ => HostFunction.growMemory
        listener := fun _ _ => some (.described "full")
        tracer := fun _ _ => some .undescribed }
    quiet.host = noisy.host ∧ quiet.Blind ∧ countdown.ProbeFree ∧
      ({} : EngineConfig).SameLimits fullyObserved ∧
      ∃ m₁ m₂,
        instantiate quiet 40 countdown [.function (.host 0 0) ⟨[.i32], [.i32]⟩] {} {} =
          some (.ok 0, m₁) ∧
        instantiate noisy 40 countdown [.function (.host 0 0) ⟨[.i32], [.i32]⟩] fullyObserved {} =
          some (.ok 0, m₂) ∧
        m₁.snapshot = m₂.snapshot ∧
        ∀ fuel calls,
          (session quiet fuel calls m₁).map (List.map fun e => (e.1, e.2.snapshot)) =
            (session noisy fuel calls m₂).map (List.map fun e => (e.1, e.2.snapshot)) := by
  intro quiet noisy
  have hb : quiet.Blind := Environment.Offered.blind fun _ => .growMemory
  have hp : countdown.ProbeFree := by
    unfold Module.ProbeFree
    decide
  have hl : ({} : EngineConfig).SameLimits fullyObserved := ⟨rfl, rfl⟩
  have h := (instrumentation_transparent quiet noisy rfl hb countdown hp
    [.function (.host 0 0) ⟨[.i32], [.i32]⟩] {} fullyObserved hl {} 40).2.1 _ _ _ _ rfl rfl
  exact ⟨rfl, hb, hp, hl, _, _, rfl, rfl, h.1, h.2.1⟩

end WasmEngine
