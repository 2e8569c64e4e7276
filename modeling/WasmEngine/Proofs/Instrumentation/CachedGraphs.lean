import WasmEngine.Proofs.ControlFlow.Catalog
import WasmEngine.Proofs.Linking.Layout

/-!
# Graphs that are never stale

Modules are copied, assigned and instantiated, and their graphs are requested, in any order. Each
answer is the graph of the code that the module holds at that moment, because every object that is
given out is: an assignment, which brings other code, drops what was remembered. As long as nothing
is assigned to a module, it keeps its objects whatever is done with it or with others. So an
instantiation may take its graphs from the module: the bodies it installs are the ones that the code
alone determines.
-/
namespace WasmEngine
set_option autoImplicit false

/-- The instrumented code of a function, if it has any. -/
def FunctionInstance.instrumented? (f : FunctionInstance) : Option InstrumentedCode :=
  match f.body with
  | .imported _ => none
  | .defined _ instrumented => instrumented

/-- Those of some functions that are covered by edges. Their graphs are the ones needed. -/
def Module.coveredByEdges (m : Module) (config : EngineConfig) (functions : List Nat) : List Nat :=
  functions.filter fun f => config.coverageOf (m.functionName f) = some .edges

theorem Module.coveredByEdges_cons (m : Module) (config : EngineConfig) (f : Nat)
    (functions : List Nat) : m.coveredByEdges config (f :: functions) =
      (if config.coverageOf (m.functionName f) = some .edges then [f] else []) ++
        m.coveredByEdges config functions := by
  unfold coveredByEdges
  rw [List.filter_cons]
  by_cases h : config.coverageOf (m.functionName f) = some .edges
  · rw [if_pos h, if_pos (decide_eq_true h)]
    rfl
  · rw [if_neg h, if_neg (by simpa using h)]
    rfl

/-- The functions that a module defines, by index. -/
def Module.definedIndices (m : Module) : List Nat :=
  List.range' (m.importCount .function) m.functions.length

/-- The functions of a new instance behind the imported ones are those that the module defines. -/
theorem drop_functions_of_allocate {s : Store} {m : Module} {entities : List Entity}
    {config : EngineConfig} {a : Allocation} (ha : allocate s m entities config = .ok a) :
    a.inst.functions.toList.drop (m.importCount .function) =
      m.definedFunctions config (m.importCount .function) := by
  obtain ⟨hi, globals, tables, memories, -, -, -, rfl⟩ := allocate_eq_ok.mp ha
  have hcount := length_importedFunctions (accepts_of_checkImports hi)
  dsimp only [allocationOf, bareInstance]
  rw [hcount, List.drop_left' hcount]

namespace Catalog

/-- What is done with the modules of a catalog. -/
inductive Operation where
  | get (position function : Nat)
  | copy (source : Nat)
  | assign (target source : Nat)
  | instantiate (position : Nat) (config : EngineConfig)

variable {c c' : Catalog} {position function index : Nat} {m : Module} {code : Code} {id : GraphId}
  {config : EngineConfig} {history : List Operation}

/-- The functions of which an instantiation of a module requests the graph. -/
def coveredByEdges (c : Catalog) (position : Nat) (config : EngineConfig) : List Nat :=
  match c.family[position]? with
  | some m => m.coveredByEdges config m.definedIndices
  | none => []

def perform (c : Catalog) : Operation → Catalog
  | .get position function => c.request position [function]
  | .copy source => c.copy source
  | .assign target source => c.assign target source
  | .instantiate position config => c.request position (c.coveredByEdges position config)

def run (c : Catalog) (history : List Operation) : Catalog := history.foldl perform c

/-- A catalog of modules of which no graph was requested yet. -/
def ofModules (modules : List Module) : Catalog := modules.foldl add {}

/-- The modules after an operation, as if no graph were ever remembered. -/
def Operation.apply (modules : List Module) : Operation → List Module
  | .get _ _ | .instantiate _ _ => modules
  | .copy source => modules ++ (modules[source]?).toList
  | .assign target source => ((modules[source]?).map (modules.set target)).getD modules

/-- No operation assigns to the module at a position. -/
def Unassigned (position : Nat) (history : List Operation) : Prop :=
  ∀ source, .assign position source ∉ history

/-! ### What a history keeps -/

/-- What requests, copies and assignments keep is kept by every history of them. -/
theorem run_keeps {P : Catalog → Prop}
    (get : ∀ {c c' : Catalog} {position function : Nat} {id : GraphId},
      c.graph? position function = some (id, c') → P c → P c')
    (copy : ∀ {c : Catalog} (source : Nat), P c → P (c.copy source))
    (assign : ∀ {c : Catalog} (target source : Nat), .assign target source ∈ history →
      P c → P (c.assign target source))
    (h : P c) : P (c.run history) := by
  induction history generalizing c with
  | nil => exact h
  | cons op history ih =>
    refine ih (fun t s hmem => assign t s (List.mem_cons_of_mem _ hmem)) ?_
    cases op with
    | get position function => exact request_keeps get _ h
    | copy source => exact copy source h
    | assign target source => exact assign target source List.mem_cons_self h
    | instantiate position config => exact request_keeps get _ h

theorem Valid.request (hc : c.Valid) (position : Nat) (functions : List Nat) :
    (c.request position functions).Valid :=
  request_keeps (fun h hc => hc.graph? h) functions hc

theorem Valid.run (hc : c.Valid) (history : List Operation) : (c.run history).Valid :=
  run_keeps (fun h hc => hc.graph? h) (fun s hc => hc.copy s) (fun t s _ hc => hc.assign t s) hc

theorem Belongs.run (hb : c.Belongs id position m index) (history : List Operation) :
    (c.run history).Belongs id position m index :=
  run_keeps (P := fun c => c.Belongs id position m index) (fun h hb => hb.graph? h)
    (fun s hb => hb.copy s) (fun t s _ hb => hb.assign t s) hb

/-- A module keeps the objects that it gives out. -/
theorem Gives.run (h : c.Gives position m index id) (hu : Unassigned position history) :
    (c.run history).Gives position m index id := by
  refine run_keeps (P := fun c => c.Gives position m index id) (fun hg h => ?_)
    (fun s h => gives_copy.mpr h) (fun t s hmem h => gives_assign.mpr ⟨h, ?_⟩) h
  · obtain ⟨m', code, hm, -⟩ := code?_of_graph? hg
    exact (gives_graph? hg hm).mpr (.inl h)
  · rintro rfl
    exact absurd hmem (hu s)

/-- A module stays what it is. -/
theorem family_run_unassigned (h : c.family[position]? = some m)
    (hu : Unassigned position history) : (c.run history).family[position]? = some m := by
  refine run_keeps (P := fun c => c.family[position]? = some m) (fun hg h => ?_) (fun s h => ?_)
    (fun t s hmem h => ?_) h
  · rwa [family_graph? hg]
  · rwa [family_copy, List.getElem?_append_left (List.getElem?_eq_some_iff.mp h).1]
  · have hne : t ≠ position := by
      rintro rfl
      exact hu s hmem
    rw [family_assign]
    rename_i c
    cases c.family[s]? with
    | none => exact h
    | some entry => rwa [Option.map_some, Option.getD_some, List.getElem?_set_ne hne]

theorem request_append (c : Catalog) (position : Nat) (functions functions' : List Nat) :
    c.request position (functions ++ functions') =
      (c.request position functions).request position functions' :=
  List.foldl_append

theorem family_request (c : Catalog) (position : Nat) (functions : List Nat) :
    (c.request position functions).family = c.family :=
  request_keeps (P := fun c' => c'.family = c.family) (fun h he => (family_graph? h).trans he)
    functions rfl

theorem family_perform (c : Catalog) (op : Operation) :
    (c.perform op).family = op.apply c.family := by
  cases op with
  | get position function => exact family_request ..
  | copy source => exact family_copy ..
  | assign target source => exact family_assign ..
  | instantiate position config => exact family_request ..

/-- What is remembered has no influence on which modules there are. -/
theorem family_run (c : Catalog) (history : List Operation) :
    (c.run history).family = history.foldl Operation.apply c.family := by
  induction history generalizing c with
  | nil => rfl
  | cons op history ih => exact (ih _).trans (congrArg (history.foldl _) (family_perform c op))

theorem modules_ofModules (modules : List Module) :
    (ofModules modules).modules = modules.map fun m => { module := m } := by
  have hadd : ∀ c : Catalog, (modules.foldl add c).modules =
      c.modules ++ modules.map fun m => { module := m } := by
    induction modules with
    | nil => simp
    | cons m modules ih => simp [ih, add]
  exact hadd {}

theorem valid_ofModules (modules : List Module) : (ofModules modules).Valid := by
  have hnone : ∀ {position m index id}, ¬ (ofModules modules).Gives position m index id := by
    rintro position m index id ⟨cached, hm, hlookup⟩
    rw [modules_ofModules, List.getElem?_map, Option.map_eq_some_iff] at hm
    obtain ⟨_, -, ⟨⟩⟩ := hm
    cases hlookup
  exact ⟨fun h => absurd h hnone, fun h => absurd h hnone⟩

/-! ### Bodies made with remembered graphs -/

/-- A graph as the module gives it out. -/
def graphOf (c : Catalog) (position function : Nat) : Graph × Catalog :=
  match c.graph? position function with
  | some (id, c') => ((c'.graphs[id]?).getD {}, c')
  | none => ({}, c)

/-- The instrumented body of a function, if it is selected for coverage or tracing. The graph is
requested from the module, and only if the entries of blocks are reported. -/
def instrument (c : Catalog) (config : EngineConfig) (position function : Nat) (name : String)
    (code : Code) : Option InstrumentedCode × Catalog :=
  let coverage := config.coverageOf name
  let trace := config.traces && config.instrumentation.selects name
  if coverage.isNone && !trace then (none, c)
  else
    let (graph, c) := if coverage = some .edges then c.graphOf position function else ({}, c)
    (some (.wrap code (ProbeSite.select code coverage trace graph)), c)

/-- The instrumented bodies of the functions of a module from an index on. -/
def instrumentFrom (c : Catalog) (config : EngineConfig) (position : Nat) (m : Module)
    (function : Nat) : List FunctionDef → List (Option InstrumentedCode) × Catalog
  | [] => ([], c)
  | f :: rest =>
    let (body, c) := c.instrument config position function (m.functionName function) f.code
    let (bodies, c) := c.instrumentFrom config position m (function + 1) rest
    (body :: bodies, c)

/-- A graph is looked at only if the entries of blocks are reported. -/
theorem select_graph_irrelevant {coverage : Option CoverageMode} (h : coverage ≠ some .edges)
    (trace : Bool) (g g' : Graph) :
    ProbeSite.select code coverage trace g = ProbeSite.select code coverage trace g' := by
  unfold ProbeSite.select
  refine congrArg (List.filterMap · _) (funext fun offset => ?_)
  simp only [ProbeSite.at?, if_neg h]

theorem Valid.graphOf_eq (hc : c.Valid) (hm : c.family[position]? = some m)
    (hcode : m.code? function = some code) :
    c.graphOf position function = (Graph.build code, c.request position [function]) := by
  obtain ⟨id, c', h⟩ := exists_graph? hm hcode
  unfold graphOf Catalog.request
  rw [List.foldl_cons, List.foldl_nil, h, Option.map_some, Option.getD_some]
  show ((c'.graphs[id]?).getD {}, c') = _
  rw [hc.graph_of_graph? h hm hcode, Option.getD_some]

/-- The remembered graph makes the same body as a new one. -/
theorem Valid.instrument_eq (hc : c.Valid) (hm : c.family[position]? = some m)
    (hcode : m.code? function = some code) (config : EngineConfig) (name : String) :
    c.instrument config position function name code = (config.instrument? name code,
      c.request position (if config.coverageOf name = some .edges then [function] else [])) := by
  unfold instrument EngineConfig.instrument?
  dsimp only
  by_cases hedges : config.coverageOf name = some .edges
  · rw [if_pos hedges, if_pos hedges, hc.graphOf_eq hm hcode, hedges]
    rfl
  · rw [if_neg hedges, if_neg hedges]
    by_cases hnone :
      (config.coverageOf name).isNone && !(config.traces && config.instrumentation.selects name)
    · rw [if_pos hnone, if_pos hnone]
      rfl
    · rw [if_neg hnone, if_neg hnone, select_graph_irrelevant hedges _ (Graph.build code) {}]
      rfl

theorem Valid.instrumentFrom_eq (hc : c.Valid) (hm : c.family[position]? = some m)
    (config : EngineConfig) {functions : List FunctionDef}
    (hcode : ∀ k f, functions[k]? = some f → m.code? (function + k) = some f.code) :
    c.instrumentFrom config position m function functions =
      (functions.mapIdx fun k f => config.instrument? (m.functionName (function + k)) f.code,
        c.request position
          (m.coveredByEdges config (List.range' function functions.length))) := by
  induction functions generalizing c function with
  | nil => rfl
  | cons f functions ih =>
    have hfirst : m.code? function = some f.code := hcode 0 f rfl
    have hrest : ∀ k g, functions[k]? = some g → m.code? (function + 1 + k) = some g.code := by
      intro k g hg
      rw [Nat.add_right_comm]
      exact hcode (k + 1) g hg
    unfold instrumentFrom
    rw [hc.instrument_eq hm hfirst]
    dsimp only
    rw [ih (hc.request ..) ((family_request ..).symm ▸ hm) hrest, List.mapIdx_cons,
      List.length_cons, List.range'_succ, Module.coveredByEdges_cons, request_append]
    simp only [Nat.add_zero, Nat.add_right_comm, Nat.add_assoc]

/-- An instantiation that takes its graphs from the module requests those of the functions that are
covered by edges, and installs the bodies that a new instance has. -/
theorem Valid.instantiate_eq (hc : c.Valid) (hm : c.family[position]? = some m)
    (config : EngineConfig) :
    c.instrumentFrom config position m (m.importCount .function) m.functions =
      ((m.definedFunctions config (m.importCount .function)).map (·.instrumented?),
        c.perform (.instantiate position config)) := by
  rw [hc.instrumentFrom_eq hm config]
  · refine Prod.ext ?_ ?_
    · apply List.ext_getElem?
      intro k
      simp only [Module.definedFunctions, List.getElem?_map, List.getElem?_mapIdx, Option.map_map]
      rfl
    · show _ = c.request position (c.coveredByEdges position config)
      rw [coveredByEdges, hm]
      rfl
  · intro k f hf
    refine Module.code?_eq_some_iff.mpr ⟨Nat.le_add_right .., f, ?_, rfl⟩
    rwa [Module.codeIndex, Nat.add_sub_cancel_left]

/-- What requests for a function of a module are answered with, from some moment on, when the
module holds `code` for it. The first answer is the object `id`. -/
structure Answers (c : Catalog) (position function : Nat) (code : Code) (id : GraphId)
    (c' : Catalog) : Prop where
  request : c.graph? position function = some (id, c')
  performed : c.perform (.get position function) = c'
  graph : c'.graphs[id]? = some (Graph.build code)
  /-- Whatever is done next, the object is given out again, still with that graph. -/
  again : ∀ history, Unassigned position history →
    (c'.run history).graph? position function = some (id, c'.run history) ∧
      (c'.run history).graphs[id]? = some (Graph.build code)
  /-- No other function is ever given the object. -/
  own : ∀ history position' function' c'',
    (c'.run history).graph? position' function' = some (id, c'') →
      position' = position ∧ function' = function
  /-- Had other things been done first, the answer would have been the same graph, and the same
  object if there was one. -/
  undisturbed : ∀ history, Unassigned position history →
    ∃ id' c'', (c.run history).graph? position function = some (id', c'') ∧
      c''.graphs[id']? = some (Graph.build code) ∧ (id < c.graphs.length → id' = id)

theorem Valid.answers (hc : c.Valid) (hm : c.family[position]? = some m)
    (hcode : m.code? function = some code) : ∃ id c', c.Answers position function code id c' := by
  obtain ⟨id, c', h⟩ := exists_graph? hm hcode
  have hc' := hc.graph? h
  have hgives : c'.Gives position m (m.codeIndex function) id :=
    (gives_graph? h hm).mpr (.inr ⟨rfl, rfl, rfl, rfl⟩)
  refine ⟨id, c', {
    request := h
    performed := ?_
    graph := hc.graph_of_graph? h hm hcode
    again := fun history hu => ?_
    own := fun history position' function' c'' h' => ?_
    undisturbed := fun history hu => ?_ }⟩
  · show Catalog.request c position [function] = c'
    rw [Catalog.request, List.foldl_cons, List.foldl_nil, h]
    rfl
  · have hrun := hgives.run hu
    have hagain := hrun.graph?_eq hcode
    exact ⟨hagain, (hc'.run history).graph_of_graph? hagain hrun.family hcode⟩
  · obtain ⟨m', code', hm', hcode'⟩ := code?_of_graph? h'
    have hbelongs := ((hc'.belongs hgives).run history).graph? h'
    obtain ⟨rfl, rfl, hindex⟩ :=
      hbelongs.only ((gives_graph? h' hm').mpr (.inr ⟨rfl, rfl, rfl, rfl⟩))
    exact ⟨rfl, Module.codeIndex_injective hcode' hcode hindex⟩
  · have hmrun := family_run_unassigned hm hu
    obtain ⟨id', c'', h'⟩ := exists_graph? hmrun hcode
    refine ⟨id', c'', h', (hc.run history).graph_of_graph? h' hmrun hcode, fun hlt => ?_⟩
    -- The object was there before the request, so the module gave it out already.
    obtain ⟨m', code', hm', -, ⟨hold, -⟩ | ⟨rfl, -⟩⟩ := graphs_graph? h
    · obtain rfl := Option.some.inj (hm.symm.trans hm')
      have hsame := (hold.run hu).graph?_eq hcode
      exact (Prod.mk.inj (Option.some.inj (h'.symm.trans hsame))).1
    · exact absurd hlt (Nat.lt_irrefl _)

end Catalog

open Catalog in
/-- Remembered graphs are never stale. After any history of a family of modules, a request for a
function that a module defines is answered with the graph of the code that the module holds then;
with the same object until something is assigned to the module, whatever is done in between; and
with the same graph whatever is done before to this module or others, short of that. The modules
are those that the operations make without any memory of graphs, and the bodies that an
instantiation makes with remembered graphs are the ones that new instances have. -/
theorem cached_graphs_current (modules : List Module) (history : List Operation) :
    let c := (ofModules modules).run history
    c.family = history.foldl Operation.apply modules ∧
    (∀ position m function code,
      (history.foldl Operation.apply modules)[position]? = some m → m.code? function = some code →
        ∃ id c', c.Answers position function code id c') ∧
    (∀ position m config, (history.foldl Operation.apply modules)[position]? = some m →
      ∃ bodies, c.instrumentFrom config position m (m.importCount .function) m.functions =
          (bodies, c.perform (.instantiate position config)) ∧
        ∀ s entities a, allocate s m entities config = .ok a →
          (a.inst.functions.toList.drop (m.importCount .function)).map (·.instrumented?) =
            bodies) := by
  intro c
  have hfamily : c.family = history.foldl Operation.apply modules := by
    rw [family_run, family, modules_ofModules, List.map_map]
    exact congrArg (history.foldl _) (List.map_id _)
  have hc : c.Valid := (valid_ofModules modules).run history
  rw [← hfamily]
  refine ⟨rfl, fun position m function code hm hcode => hc.answers hm hcode,
    fun position m config hm => ⟨_, hc.instantiate_eq hm config, fun s entities a ha => ?_⟩⟩
  rw [drop_functions_of_allocate ha]

open Catalog in
/-- A module with a branch is covered and copied, and assigned to another whose graph was given out
before. That one is then answered for by the new code. -/
theorem assigned_module_current :
    let code : Code :=
      { instructions := #[.const .i32 7, .brIf ⟨3, 0⟩ 0, .nop, .end_], maxHeight := 1 }
    let branching : Module :=
      { imports := [⟨"env", "f", .function {}⟩], functions := [⟨0, code⟩] }
    let plain : Module := { functions := [⟨0, { instructions := #[.nop, .end_] }⟩] }
    let edges : EngineConfig := { instrumentation := { listener := some 0, mode := .edges } }
    let entities : List Entity := [.function (.guest ⟨0, 0⟩) {}]
    let c := (ofModules [branching, plain]).run
      [.get 1 0, .instantiate 0 edges, .copy 0, .assign 1 0]
    c.family = [branching, branching, branching] ∧ branching.code? 1 = some code ∧
      (∃ id c', c.Answers 1 1 code id c') ∧
      ∃ bodies a, c.instrumentFrom edges 2 branching 1 branching.functions =
          (bodies, c.perform (.instantiate 2 edges)) ∧
        allocate {} branching entities edges = .ok a ∧
        (a.inst.functions.toList.drop 1).map (·.instrumented?) = bodies := by
  intro code branching plain edges entities c
  obtain ⟨hfamily, hanswers, hbodies⟩ := cached_graphs_current [branching, plain]
    [.get 1 0, .instantiate 0 edges, .copy 0, .assign 1 0]
  obtain ⟨bodies, hmade, hinstalled⟩ := hbodies 2 branching edges rfl
  have hallocated : allocate {} branching entities edges =
      .ok (allocationOf {} branching entities edges [] [] []) := rfl
  exact ⟨hfamily, rfl, hanswers 1 branching 1 code rfl rfl, bodies, _, hmade, hallocated,
    hinstalled _ _ _ hallocated⟩

end WasmEngine
