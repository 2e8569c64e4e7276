import WasmEngine.Proofs.Execution.Observation

/-!
# The machine without its observers

The view of a machine leaves out everything that instrumentation adds: probes, listeners, coverage
reports, traced instructions and notices. Of tracers and of the memory accesses reported to them it
keeps those that are watched. Two machines with equal views differ in what is observed only, and
every operation of the interpreter takes equal views to equal views.
-/
namespace WasmEngine
set_option autoImplicit false

/-- What a call of a function runs: of a body, the instruction behind the probe at each offset. -/
inductive BodyView where
  | imported (callee : Callee)
  | defined (code : Code) (instruction : Nat → Instruction)

structure FunctionView where
  type : FuncType
  name : String
  index : Nat
  body : BodyView

def FunctionInstance.view (f : FunctionInstance) : FunctionView where
  type := f.type
  name := f.name
  index := f.index
  body := match f.body with
    | .imported callee => .imported callee
    | .defined code instrumented => .defined code (Running.ofFunction 0 f code instrumented).instruction

structure InstanceView where
  module : Module
  functions : Array FunctionView
  tables : List TableAddr
  memories : List MemoryAddr
  globals : Array GlobalAddr
  exports : List (String × Entity)
  tracer : Option Nat

def ModuleInstance.view (watched : Nat → Bool) (i : ModuleInstance) : InstanceView where
  module := i.module
  functions := i.functions.map FunctionInstance.view
  tables := i.tables
  memories := i.memories
  globals := i.globals
  exports := i.exports
  tracer := i.tracer.filter watched

structure StoreView where
  memories : Array Memory
  tables : Array Table
  globals : Array Global
  instances : Array InstanceView

def Store.view (watched : Nat → Bool) (s : Store) : StoreView where
  memories := s.memories
  tables := s.tables
  globals := s.globals
  instances := s.instances.map (ModuleInstance.view watched)

/-- The entry is a memory access reported to a watched tracer. -/
def Event.isAccess (watched : Nat → Bool) : Event → Bool
  | .trace tracer (.access _ _ _) => watched tracer
  | _ => false

structure MachineView where
  store : StoreView
  context : Context
  interruptFlag : Bool
  accesses : List Event

def Machine.view (watched : Nat → Bool) (m : Machine) : MachineView where
  store := m.store.view watched
  context := m.context
  interruptFlag := m.interruptFlag
  accesses := m.journal.toList.filter (Event.isAccess watched)

section
variable {watched : Nat → Bool}

namespace Store

variable {s s' : Store}

/-- What can be read off the view of an instance is the same in stores with equal views. -/
theorem bind_instance_eq {α : Type} (h : s.view watched = s'.view watched) (i : InstanceId)
    (read : InstanceView → Option α) :
    (s.instances[i]?).bind (fun x => read (x.view watched)) =
      (s'.instances[i]?).bind (fun x => read (x.view watched)) := by
  have hi : (s.instances.map (ModuleInstance.view watched))[i]? =
      (s'.instances.map (ModuleInstance.view watched))[i]? :=
    congrArg (fun v => v.instances[i]?) h
  rw [Array.getElem?_map, Array.getElem?_map] at hi
  have hb := congrArg (fun o => o.bind read) hi
  simpa only [Option.bind_map, Function.comp_def] using hb

theorem memories_eq (h : s.view watched = s'.view watched) : s.memories = s'.memories :=
  congrArg StoreView.memories h

theorem tables_eq (h : s.view watched = s'.view watched) : s.tables = s'.tables :=
  congrArg StoreView.tables h

theorem globals_eq (h : s.view watched = s'.view watched) : s.globals = s'.globals :=
  congrArg StoreView.globals h

theorem memoryOf?_eq (h : s.view watched = s'.view watched) (i : InstanceId) :
    s.memoryOf? i = s'.memoryOf? i :=
  bind_instance_eq h i fun v => v.memories.head?

theorem tableOf?_eq (h : s.view watched = s'.view watched) (i : InstanceId) :
    s.tableOf? i = s'.tableOf? i :=
  bind_instance_eq h i fun v => v.tables.head?

theorem globalOf?_eq (h : s.view watched = s'.view watched) (i : InstanceId) (index : Nat) :
    s.globalOf? i index = s'.globalOf? i index :=
  bind_instance_eq h i fun v => v.globals[index]?

theorem moduleType?_eq (h : s.view watched = s'.view watched) (i : InstanceId) (index : Nat) :
    (s.instances[i]?).bind (·.module.types[index]?) =
      (s'.instances[i]?).bind (·.module.types[index]?) :=
  bind_instance_eq h i fun v => v.module.types[index]?

theorem function?_view_eq (h : s.view watched = s'.view watched) (f : FunctionRef) :
    (s.function? f).map FunctionInstance.view = (s'.function? f).map FunctionInstance.view := by
  have hb := bind_instance_eq h f.inst fun v => v.functions[f.func]?
  simpa only [function?, Option.map_bind, Function.comp_def, ModuleInstance.view,
    Array.getElem?_map] using hb

theorem functionType?_eq (h : s.view watched = s'.view watched) (f : FunctionRef) :
    (s.function? f).map (·.type) = (s'.function? f).map (·.type) := by
  have hf := congrArg (Option.map FunctionView.type) (function?_view_eq h f)
  rw [Option.map_map, Option.map_map] at hf
  exact hf

theorem updateMemory_view (h : s.view watched = s'.view watched) (a : MemoryAddr)
    (f : Memory → Memory) :
    (s.updateMemory a f).view watched = (s'.updateMemory a f).view watched :=
  congrArg (fun v : StoreView => { v with memories := v.memories.modify a f }) h

theorem updateTable_view (h : s.view watched = s'.view watched) (a : TableAddr) (f : Table → Table) :
    (s.updateTable a f).view watched = (s'.updateTable a f).view watched :=
  congrArg (fun v : StoreView => { v with tables := v.tables.modify a f }) h

theorem setGlobal_view (h : s.view watched = s'.view watched) (a : GlobalAddr) (value : Cell) :
    (s.setGlobal a value).view watched = (s'.setGlobal a value).view watched :=
  congrArg (fun v : StoreView => { v with globals := v.globals.modify a ({ · with value }) }) h

theorem growMemory_view (h : s.view watched = s'.view watched) (a : MemoryAddr) (delta : Nat) :
    (s.growMemory a delta).1 = (s'.growMemory a delta).1 ∧
      (s.growMemory a delta).2.view watched = (s'.growMemory a delta).2.view watched := by
  unfold growMemory
  rw [memories_eq h]
  split
  · exact ⟨rfl, updateMemory_view h a _⟩
  · exact ⟨rfl, h⟩

end Store

namespace Machine

variable {m m' : Machine}

theorem store_view_eq (h : m.view watched = m'.view watched) :
    m.store.view watched = m'.store.view watched :=
  congrArg MachineView.store h

theorem context_eq (h : m.view watched = m'.view watched) : m.context = m'.context :=
  congrArg MachineView.context h

theorem interruptFlag_eq (h : m.view watched = m'.view watched) :
    m.interruptFlag = m'.interruptFlag :=
  congrArg MachineView.interruptFlag h

theorem interruptRequested_eq (h : m.view watched = m'.view watched) :
    m.interruptRequested = m'.interruptRequested := by
  rw [interruptRequested, interruptRequested, context_eq h, interruptFlag_eq h]

theorem withContext_view (h : m.view watched = m'.view watched) (context : Context) :
    (m.withContext context).view watched = (m'.withContext context).view watched :=
  congrArg (fun v : MachineView => { v with context }) h

theorem enter_view (h : m.view watched = m'.view watched) :
    m.enter.view watched = m'.enter.view watched :=
  congrArg (fun v : MachineView => { v with context.depth := v.context.depth + 1 }) h

theorem leave_view (h : m.view watched = m'.view watched) :
    m.leave.view watched = m'.leave.view watched :=
  congrArg (fun v : MachineView => { v with context.depth := v.context.depth - 1 }) h

theorem updateStore_view (h : m.view watched = m'.view watched) {f f' : Store → Store}
    (hf : (f m.store).view watched = (f' m'.store).view watched) :
    (m.updateStore f).view watched = (m'.updateStore f').view watched := by
  show MachineView.mk ((f m.store).view watched) m.context m.interruptFlag _ =
    MachineView.mk ((f' m'.store).view watched) m'.context m'.interruptFlag _
  rw [hf, context_eq h, interruptFlag_eq h]
  exact congrArg _ (congrArg MachineView.accesses h)

/-- An entry that is not a watched access leaves the view alone. -/
theorem emit_view {e : Event} (he : e.isAccess watched = false) :
    (m.emit e).view watched = m.view watched := by
  simp [view, emit, he]

theorem emit_access_view {tracer : Nat} {kind : AccessKind} {address width : Nat}
    (ht : watched tracer = true) :
    (m.emit (.trace tracer (.access kind address width))).view watched =
      { m.view watched with accesses := (m.view watched).accesses ++
          [.trace tracer (.access kind address width)] } := by
  have he : Event.isAccess watched (.trace tracer (.access kind address width)) = true := ht
  simp [view, emit, he]

theorem reportCoverage_view (obs : Observers) (m : Machine) (function : String) (listener : Nat)
    (e : CoverageEvent) :
    (m.reportCoverage obs function listener e).view watched = m.view watched := by
  unfold reportCoverage
  dsimp only
  split
  · exact emit_view rfl
  · exact (emit_view rfl).trans (emit_view rfl)

theorem reportInstruction_view (obs : Observers) (m : Machine) (function : String)
    (tracer offset opcode : Nat) :
    (m.reportInstruction obs function tracer offset opcode).view watched = m.view watched := by
  unfold reportInstruction
  dsimp only
  split
  · exact emit_view rfl
  · exact (emit_view rfl).trans (emit_view rfl)

/-- The reports of a probe are not part of the view. -/
theorem reportProbe_view (obs : Observers) (m : Machine) (i : InstanceId) (function : String)
    (probe : Probe) (previous : BlockId) :
    (m.reportProbe obs i function probe previous).view watched = m.view watched := by
  unfold reportProbe
  dsimp only
  repeat' split
  all_goals simp only [reportCoverage_view, reportInstruction_view]

/-- The tracer of an instance, if it is watched. -/
def watchedTracer? (watched : Nat → Bool) (m : Machine) (i : InstanceId) : Option Nat :=
  (m.store.instances[i]?).bind fun x => x.tracer.filter watched

theorem watchedTracer?_eq (h : m.view watched = m'.view watched) (i : InstanceId) :
    m.watchedTracer? watched i = m'.watchedTracer? watched i :=
  Store.bind_instance_eq (store_view_eq h) i fun v => v.tracer

/-- Of a memory access the view keeps what a watched tracer is told. A tracer that fails adds a
notice only. -/
theorem reportAccess_view (obs : Observers) (m : Machine) (i : InstanceId) (kind : AccessKind)
    (address width : Nat) :
    (m.reportAccess obs i kind address width).view watched =
      { m.view watched with accesses := (m.view watched).accesses ++
          ((m.watchedTracer? watched i).map fun t => .trace t (.access kind address width)).toList } := by
  have hw : m.watchedTracer? watched i =
      ((m.store.instances[i]?).bind (·.tracer)).filter watched := by
    unfold watchedTracer?
    cases m.store.instances[i]? <;> rfl
  rw [hw]
  unfold reportAccess
  cases (m.store.instances[i]?).bind (·.tracer) with
  | none => simp [Option.filter]
  | some tracer =>
    have hnotice : ∀ failure, Event.isAccess watched (.notice (.tracerFailed failure)) = false :=
      fun _ => rfl
    cases ht : watched tracer with
    | true =>
      dsimp only
      split
      · rw [emit_access_view ht]; simp [Option.filter, ht]
      · rw [emit_view (hnotice _), emit_access_view ht]; simp [Option.filter, ht]
    | false =>
      have he : Event.isAccess watched (.trace tracer (.access kind address width)) = false := ht
      dsimp only
      split
      · rw [emit_view he]; simp [Option.filter, ht]
      · rw [emit_view (hnotice _), emit_view he]; simp [Option.filter, ht]

theorem reportAccess_view_eq (h : m.view watched = m'.view watched) (obs obs' : Observers)
    (i : InstanceId) (kind : AccessKind) (address width : Nat) :
    (m.reportAccess obs i kind address width).view watched =
      (m'.reportAccess obs' i kind address width).view watched := by
  rw [reportAccess_view, reportAccess_view, h, watchedTracer?_eq h]

end Machine

end

end WasmEngine
