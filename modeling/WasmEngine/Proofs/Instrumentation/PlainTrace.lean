import Mathlib.Data.List.Basic
import WasmEngine.Proofs.Instrumentation.Installation
import WasmEngine.Proofs.Instrumentation.Simulation

/-!
# The plain trace

The instructions that a run dispatches, frame by frame and in order. A machine without probes and
observers dispatches the same ones, and what listeners and tracers are told is read off them: the
offsets and the instructions reported are the part of the plain trace that the settings select.
-/
namespace WasmEngine
set_option autoImplicit false

/-- An instruction that a frame of a function dispatches. -/
structure Dispatch where
  path : FramePath
  function : FunctionRef
  name : String
  code : Code
  offset : Nat
  instruction : Instruction

/-- The instruction dispatched at a visit: none if no tick is left for it, or if the body has ended
without a return. -/
def Visit.dispatch? (v : Visit) : Option Dispatch :=
  if v.dispatched then
    (v.running.code.instructions[v.state.pc]?).map fun instr =>
      ⟨v.path, v.function, v.running.name, v.running.code, v.state.pc, instr⟩
  else none

/-- The instructions that an observed computation dispatches, in order. -/
def Observed.trace {α : Type} (o : Observed α) : List Dispatch := o.visits.filterMap Visit.dispatch?

def FunctionInstance.plain (f : FunctionInstance) : FunctionInstance :=
  { f with body := match f.body with
      | .imported callee => .imported callee
      | .defined code _ => .defined code none }

def ModuleInstance.plain (i : ModuleInstance) : ModuleInstance :=
  { i with functions := i.functions.map FunctionInstance.plain, listener := none, tracer := none }

/-- The machine without probes, listeners, tracers and journal. -/
def Machine.plain (m : Machine) : Machine :=
  { m with store.instances := m.store.instances.map ModuleInstance.plain, journal := #[] }

section
variable {configs : InstanceId → EngineConfig}

theorem plain_function_view {config : EngineConfig} {f : FunctionInstance}
    (h : ∀ code instrumented, f.body = .defined code instrumented →
      code.ProbeFree ∧ instrumented = config.instrument? f.name code) :
    f.plain.view = f.view := by
  obtain ⟨type, name, index, callee | ⟨code, instrumented⟩⟩ := f
  · rfl
  · obtain ⟨hfree, hprobed⟩ := h code instrumented rfl
    have hplain := funext (ofFunction_none_faithful 0
      (⟨type, name, index, .defined code none⟩ : FunctionInstance) hfree)
    have hprobes := funext (instrument?_faithful config 0
      (⟨type, name, index, .defined code instrumented⟩ : FunctionInstance) name hfree)
    dsimp only at hprobed
    rw [← hprobed] at hprobes
    simp only [FunctionInstance.plain, FunctionInstance.view, FunctionView.mk.injEq,
      BodyView.defined.injEq, true_and]
    exact hplain.trans hprobes.symm

/-- Nothing but what is observed is lost. -/
theorem plain_view {m : Machine} (hm : m.store.Instrumented configs) :
    m.plain.view (fun _ => false) = m.view (fun _ => false) := by
  have hinst : m.plain.store.instances.map (ModuleInstance.view fun _ => false) =
      m.store.instances.map (ModuleInstance.view fun _ => false) := by
    apply Array.ext_getElem?
    intro k
    simp only [Machine.plain, Array.getElem?_map, Option.map_map]
    cases hk : m.store.instances[k]? with
    | none => rfl
    | some i =>
      have hfunctions : i.functions.map (fun f => f.plain.view) =
          i.functions.map FunctionInstance.view :=
        Array.map_congr_left fun f hf => plain_function_view ((hm k i hk).functions f hf)
      have htracer : i.tracer.filter (fun _ => false) = none := by cases i.tracer <;> rfl
      simp only [Option.map_some, ModuleInstance.plain, ModuleInstance.view,
        Array.map_map, Function.comp_def, hfunctions, htracer, Option.filter_none]
  have haccess : ∀ l : List Event, l.filter (Event.isAccess fun _ => false) = [] := by
    intro l
    refine List.filter_eq_nil_iff.mpr fun e _ => ?_
    rcases e with _ | ⟨_, _ | _⟩ | _ <;> simp [Event.isAccess]
  show MachineView.mk ⟨_, _, _, m.plain.store.instances.map _⟩ _ _ _ = _
  rw [hinst, haccess]
  exact congrArg (MachineView.mk _ _ _) (haccess _).symm

/-- The instruction dispatched at a visit, read off its view. -/
def VisitView.dispatch? (v : VisitView) : Option Dispatch :=
  if v.machine.context.charge.1 then
    (v.code.instructions[v.pc]?).map fun instr =>
      ⟨v.path, v.function, v.name, v.code, v.pc, instr⟩
  else none

theorem trace_eq_view {α : Type} (watched : Nat → Bool) (o : Observed α) :
    o.trace = (o.visits.map (Visit.view watched)).filterMap VisitView.dispatch? := by
  rw [List.filterMap_map]
  rfl

/-- With or without probes the same instructions are dispatched. -/
theorem trace_eq_of_alike {α : Type} {watched : Nat → Bool} {o o' : Observed α}
    (h : o.Alike watched o') : o.trace = o'.trace := by
  rw [trace_eq_view watched, trace_eq_view watched, h.visits]

end

/-- Coverage of the function in the mode goes to the listener. -/
def EngineConfig.covers (c : EngineConfig) (listener : Nat) (mode : CoverageMode) (name : String) :
    Bool :=
  c.instrumentation.listener = some listener && c.instrumentation.mode = mode &&
    c.instrumentation.selects name

theorem EngineConfig.coverageOf_of_covers {c : EngineConfig} {listener : Nat} {mode : CoverageMode}
    {name : String} (h : c.covers listener mode name = true) : c.coverageOf name = some mode := by
  simp only [covers, Bool.and_eq_true, decide_eq_true_eq] at h
  obtain ⟨⟨hl, hm⟩, hs⟩ := h
  rw [coverageOf, hl, hs, hm]
  rfl

/-- The instructions of the function go to the tracer. -/
def EngineConfig.tracesTo (c : EngineConfig) (tracer : Nat) (name : String) : Bool :=
  c.traceInstructions && c.tracer = some tracer && c.instrumentation.selects name

namespace Dispatch

variable (configs : InstanceId → EngineConfig)

/-- The listener is told of the function that runs, in the mode. -/
def covered (listener : Nat) (mode : CoverageMode) (d : Dispatch) : Bool :=
  (configs d.function.inst).covers listener mode d.name

/-- The tracer is told of the instruction. -/
def traced (tracer : Nat) (d : Dispatch) : Bool := (configs d.function.inst).tracesTo tracer d.name

def entered? (d : Dispatch) : Option BlockId := d.code.entered? d.offset

def reports (d : Dispatch) (previous : BlockId) : List Event :=
  (configs d.function.inst).reports d.name d.code d.offset d.instruction previous

end Dispatch

/-- The coverage that an entry reports to a listener. -/
def Event.coverageTo? (listener : Nat) : Event → Option CoverageEvent
  | .coverage l e => if l = listener then some e else none
  | _ => none

/-- The instruction that an entry reports to a tracer: function, offset and opcode. -/
def Event.instructionTo? (tracer : Nat) : Event → Option (String × Nat × Nat)
  | .trace t (.instruction f o opcode) => if t = tracer then some (f, o, opcode) else none
  | _ => none

theorem Event.coverageTo?_of_not_report {e : Event} (he : e.isReport = false) (listener : Nat) :
    e.coverageTo? listener = none := by
  cases e with
  | coverage l e => cases he
  | trace t e => rfl
  | notice n => rfl

theorem Event.instructionTo?_of_not_report {e : Event} (he : e.isReport = false) (tracer : Nat) :
    e.instructionTo? tracer = none := by
  cases e with
  | coverage l e => rfl
  | trace t e =>
    cases e with
    | instruction f o opcode => cases he
    | access kind address width => rfl
  | notice n => rfl

def CoverageEvent.offset? : CoverageEvent → Option (String × Nat)
  | .offset f o => some (f, o)
  | .edge _ _ _ => none

def CoverageEvent.edge? : CoverageEvent → Option (String × BlockId × BlockId)
  | .offset _ _ => none
  | .edge f a b => some (f, a, b)

namespace Machine

def read {α : Type} (g : Event → Option α) (m : Machine) : List α := m.journal.toList.filterMap g

/-- The coverage reports to a listener, in order. -/
def coverageTo (listener : Nat) (m : Machine) : List CoverageEvent :=
  m.read (Event.coverageTo? listener)

def instructionsTo (tracer : Nat) (m : Machine) : List (String × Nat × Nat) :=
  m.read (Event.instructionTo? tracer)

def offsetsTo (listener : Nat) (m : Machine) : List (String × Nat) :=
  (m.coverageTo listener).filterMap CoverageEvent.offset?

def edgesTo (listener : Nat) (m : Machine) : List (String × BlockId × BlockId) :=
  (m.coverageTo listener).filterMap CoverageEvent.edge?

/-- Only reports are read. -/
theorem read_eq {α : Type} {g : Event → Option α}
    (hg : ∀ e : Event, e.isReport = false → g e = none) (m : Machine) :
    m.read g = m.reports.filterMap g := by
  unfold read reports
  rw [List.filterMap_filter]
  congr 1
  funext e
  split
  · rfl
  · rename_i he
    exact hg e (by simpa using he)

end Machine

section
variable {configs : InstanceId → EngineConfig}

/-- The reports of a visit are those that the settings ask for at the instruction dispatched. -/
theorem Visit.Instrumented.reports_eq {v : Visit} (h : v.Instrumented configs) :
    v.reports = match v.dispatch? with
      | none => []
      | some d => d.reports configs v.state.previous := by
  unfold Visit.reports Visit.dispatch?
  split
  · obtain ⟨i, hi⟩ : ∃ i, v.machine.store.instances[v.function.inst]? = some i :=
      ⟨_, Array.getElem?_eq_getElem h.inst_lt⟩
    have hinst : v.running.inst = v.function.inst := by
      obtain ⟨f, code, -, hr⟩ := h.running
      rw [hr]
      rfl
    have hconfig := h.store _ i hi
    cases hget : v.running.code.instructions[v.state.pc]? with
    | none =>
      have hsize : ¬ v.state.pc < v.running.code.size :=
        Nat.not_lt.mpr (Array.getElem?_eq_none_iff.mp hget)
      rw [Running.reportsAt, h.running.probe?_eq, if_neg hsize]
      rfl
    | some instr =>
      refine h.running.reportsAt_eq ?_ ?_ hget
      · rw [hinst, hi]
        exact hconfig.listener
      · rw [hinst, hi]
        exact hconfig.tracer
  · rfl

/-- What a run reports, if what each of its visits reports is known. -/
theorem read_of_accounted {α β : Type} {g : Event → Option α}
    (hg : ∀ e : Event, e.isReport = false → g e = none) {m : Machine} {o : Observed β}
    (ho : o.Accounted configs m) {k : Visit → Option α}
    (hk : ∀ v, v.Instrumented configs → v.reports.filterMap g = (k v).toList) :
    o.machine.read g = m.read g ++ o.visits.filterMap k := by
  rw [Machine.read_eq hg, Machine.read_eq hg, ho.accounts.reports, List.filterMap_append,
    List.filterMap_flatMap, List.filterMap_eq_flatMap_toList k]
  congr 1
  exact List.flatMap_congr fun v hv => hk v (ho.visits v hv)

end

namespace EngineConfig

variable (c : EngineConfig)

/-- A listener is told of an event that is reported for a mode if it is covered in the mode. -/
theorem covered_coverageTo (listener : Nat) (name : String) (mode : CoverageMode)
    (e : CoverageEvent) :
    (if c.coverageOf name = some mode then
      (c.instrumentation.listener.map fun l => Event.coverage l e).toList else []).filterMap
        (Event.coverageTo? listener) = if c.covers listener mode name then [e] else [] := by
  obtain ⟨pages, elements, ⟨receiver, selected, filter, excluded⟩, tracer, traceInstructions⟩ := c
  unfold coverageOf covers
  dsimp only
  cases receiver with
  | none => simp
  | some l =>
    generalize Instrumentation.selects _ name = selects
    by_cases hl : l = listener <;> by_cases hm : selected = mode <;> cases selects <;>
      simp [hl, hm, Event.coverageTo?]

theorem reports_coverageTo (listener : Nat) (name : String) (code : Code) (offset : Nat)
    (instr : Instruction) (previous : BlockId) :
    (c.reports name code offset instr previous).filterMap (Event.coverageTo? listener) =
      (if c.covers listener .offsets name then [.offset name offset] else []) ++
        if c.covers listener .edges name then
          ((code.entered? offset).map (.edge name previous)).toList else [] := by
  have htrace : (if c.traces && c.instrumentation.selects name then (c.tracer.map fun t =>
      Event.trace t (.instruction name offset instr.opcode)).toList else []).filterMap
      (Event.coverageTo? listener) = [] := by
    split
    · cases c.tracer <;> rfl
    · rfl
  unfold reports
  rw [List.filterMap_append, List.filterMap_append, htrace, covered_coverageTo, List.nil_append]
  congr 1
  cases code.entered? offset with
  | none => simp
  | some b => simpa using c.covered_coverageTo listener name .edges (.edge name previous b)

theorem reports_instructionTo (tracer : Nat) (name : String) (code : Code) (offset : Nat)
    (instr : Instruction) (previous : BlockId) :
    (c.reports name code offset instr previous).filterMap (Event.instructionTo? tracer) =
      if c.tracesTo tracer name then [(name, offset, instr.opcode)] else [] := by
  have hoffset : (if c.coverageOf name = some .offsets then (c.instrumentation.listener.map fun l =>
      Event.coverage l (.offset name offset)).toList else []).filterMap
      (Event.instructionTo? tracer) = [] := by
    split
    · cases c.instrumentation.listener <;> rfl
    · rfl
  have hedge : (if c.coverageOf name = some .edges then ((code.entered? offset).bind fun b =>
      c.instrumentation.listener.map fun l => Event.coverage l (.edge name previous b)).toList
      else []).filterMap (Event.instructionTo? tracer) = [] := by
    split
    · cases code.entered? offset <;> cases c.instrumentation.listener <;> rfl
    · rfl
  unfold reports
  rw [List.filterMap_append, List.filterMap_append, hoffset, hedge, List.append_nil,
    List.append_nil]
  obtain ⟨pages, elements, instrumentation, receiver, traceInstructions⟩ := c
  unfold tracesTo traces
  dsimp only
  cases receiver with
  | none => simp
  | some t =>
    by_cases ht : t = tracer <;> cases traceInstructions <;> cases instrumentation.selects name <;>
      simp [ht, Event.instructionTo?]

end EngineConfig

/-- An edge that a frame reports. -/
structure EdgeReport where
  path : FramePath
  function : String
  source : BlockId
  target : BlockId
  deriving DecidableEq, Inhabited

def EdgeReport.edge (e : EdgeReport) : String × BlockId × BlockId := (e.function, e.source, e.target)

namespace Visit

variable (configs : InstanceId → EngineConfig) (listener : Nat) (v : Visit)

/-- The block whose entry the listener is told of at a visit. -/
def entry? : Option BlockId :=
  (v.dispatch?.filter (·.covered configs listener .edges)).bind Dispatch.entered?

def edgeReport? : Option EdgeReport :=
  (v.entry? configs listener).map fun b => ⟨v.path, v.running.name, v.state.previous, b⟩

end Visit

theorem dispatch?_eq_some {v : Visit} {d : Dispatch} (h : v.dispatch? = some d) :
    d.path = v.path ∧ d.name = v.running.name ∧ d.code = v.running.code := by
  unfold Visit.dispatch? at h
  split at h
  · obtain ⟨instr, -, rfl⟩ := Option.map_eq_some_iff.mp h
    exact ⟨rfl, rfl, rfl⟩
  · cases h

section
variable {configs : InstanceId → EngineConfig} {m : Machine} {α : Type} {o : Observed α}

/-- The coverage reports of a visit are an offset or an edge. -/
theorem Visit.Instrumented.coverage_eq {v : Visit} (h : v.Instrumented configs) (listener : Nat) :
    v.reports.filterMap (Event.coverageTo? listener) =
      ((v.dispatch?.filter (·.covered configs listener .offsets)).map fun d =>
        CoverageEvent.offset d.name d.offset).toList ++
      ((v.edgeReport? configs listener).map fun e =>
        CoverageEvent.edge e.function e.source e.target).toList := by
  rw [h.reports_eq]
  unfold Visit.edgeReport? Visit.entry?
  cases hd : v.dispatch? with
  | none => rfl
  | some d =>
    dsimp only
    rw [Dispatch.reports, EngineConfig.reports_coverageTo, ← (dispatch?_eq_some hd).2.1]
    simp only [Option.filter_some, Dispatch.covered]
    congr 1
    · split <;> rfl
    · split
      · rw [Option.bind_some, Option.map_map]
        rfl
      · rfl

/-- The offsets that a listener is told of are the part of the trace that is covered. -/
theorem offsetsTo_eq (ho : o.Accounted configs m) (listener : Nat) :
    o.machine.offsetsTo listener = m.offsetsTo listener ++
      (o.trace.filter (·.covered configs listener .offsets)).map fun d => (d.name, d.offset) := by
  have hread : ∀ n : Machine, n.offsetsTo listener =
      n.read fun e => (e.coverageTo? listener).bind CoverageEvent.offset? :=
    fun _ => List.filterMap_filterMap ..
  rw [hread, hread, Observed.trace, List.filter_filterMap, List.map_filterMap]
  refine read_of_accounted (fun e he => ?_) ho fun v hv => ?_
  · rw [Event.coverageTo?_of_not_report he, Option.bind_none]
  · rw [← List.filterMap_filterMap, hv.coverage_eq, List.filterMap_append]
    cases v.edgeReport? configs listener <;>
      cases v.dispatch?.filter (·.covered configs listener .offsets) <;> rfl

/-- The edges that a listener is told of are those of the visits. -/
theorem edgesTo_eq (ho : o.Accounted configs m) (listener : Nat) :
    o.machine.edgesTo listener = m.edgesTo listener ++
      (o.visits.filterMap (Visit.edgeReport? configs listener)).map EdgeReport.edge := by
  have hread : ∀ n : Machine, n.edgesTo listener =
      n.read fun e => (e.coverageTo? listener).bind CoverageEvent.edge? :=
    fun _ => List.filterMap_filterMap ..
  rw [hread, hread, List.map_filterMap]
  refine read_of_accounted (fun e he => ?_) ho fun v hv => ?_
  · rw [Event.coverageTo?_of_not_report he, Option.bind_none]
  · rw [← List.filterMap_filterMap, hv.coverage_eq, List.filterMap_append]
    cases v.edgeReport? configs listener <;>
      cases v.dispatch?.filter (·.covered configs listener .offsets) <;> rfl

/-- The instructions that a tracer is told of are the part of the trace that is traced. -/
theorem instructionsTo_eq (ho : o.Accounted configs m) (tracer : Nat) :
    o.machine.instructionsTo tracer = m.instructionsTo tracer ++
      (o.trace.filter (·.traced configs tracer)).map fun d =>
        (d.name, d.offset, d.instruction.opcode) := by
  rw [Observed.trace, List.filter_filterMap, List.map_filterMap]
  refine read_of_accounted (fun e he => Event.instructionTo?_of_not_report he tracer) ho
    fun v hv => ?_
  rw [hv.reports_eq]
  cases v.dispatch? with
  | none => rfl
  | some d =>
    dsimp only
    rw [Dispatch.reports, EngineConfig.reports_instructionTo]
    simp only [Option.filter_some, Dispatch.traced]
    split <;> rfl

end

end WasmEngine
