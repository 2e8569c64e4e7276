import WasmEngine.Instrumentation.Coverage
import WasmEngine.Proofs.Embedding.Blindness
import WasmEngine.Proofs.Embedding.Discretion
import WasmEngine.Proofs.Instrumentation.FrameEdges

/-!
# Coverage and trace reports are exact

The reports of a run are laid beside the plain trace, the instructions that the same run dispatches
without probes. Offsets and instructions are the selected part of it; edges are, frame by frame, the
way through the blocks that it enters. A recorder ends up with exactly these sets.
-/
namespace WasmEngine
set_option autoImplicit false

instance : Std.TransCmp edgeOrder := inferInstanceAs (Std.TransCmp (compareLex _ _))

instance : Std.LawfulEqCmp edgeOrder where
  compare_self := Std.ReflCmp.compare_self
  eq_of_compare {a b} h := by
    simp only [edgeOrder, compareLex_eq_eq, compareOn, Std.LawfulEqCmp.compare_eq_iff_eq] at h
    exact Prod.ext h.1 h.2

namespace Coverage

variable {f : String} {o a b : Nat}

theorem mem_offsetsOf_record (c : Coverage) (e : CoverageEvent) :
    o ∈ (c.record e).offsetsOf f ↔ o ∈ c.offsetsOf f ∨ e = .offset f o := by
  cases e with
  | offset f' o' =>
    simp only [record, offsetsOf, Std.TreeMap.getD_insert, Std.LawfulEqCmp.compare_eq_iff_eq]
    split
    · rename_i hf
      subst hf
      simp [Std.TreeSet.mem_insert, or_comm]
    · rename_i hf
      simp [hf]
  | edge f' a' b' => simp [record, offsetsOf]

theorem mem_edgesOf_record (c : Coverage) (e : CoverageEvent) :
    (a, b) ∈ (c.record e).edgesOf f ↔ (a, b) ∈ c.edgesOf f ∨ e = .edge f a b := by
  cases e with
  | offset f' o' => simp [record, edgesOf]
  | edge f' a' b' =>
    simp only [record, edgesOf, Std.TreeMap.getD_insert, Std.LawfulEqCmp.compare_eq_iff_eq]
    split
    · rename_i hf
      subst hf
      simp [Std.TreeSet.mem_insert, or_comm]
    · rename_i hf
      simp [hf]

/-- The recorded offsets are those reported. -/
theorem mem_offsetsOf_foldl (l : List CoverageEvent) :
    ∀ c : Coverage, o ∈ (l.foldl record c).offsetsOf f ↔ o ∈ c.offsetsOf f ∨ .offset f o ∈ l := by
  induction l with
  | nil => simp
  | cons e rest ih =>
    intro c
    rw [List.foldl_cons, ih, mem_offsetsOf_record, List.mem_cons, or_assoc, eq_comm (a := e)]

/-- The recorded edges are those reported. -/
theorem mem_edgesOf_foldl (l : List CoverageEvent) :
    ∀ c : Coverage,
      (a, b) ∈ (l.foldl record c).edgesOf f ↔ (a, b) ∈ c.edgesOf f ∨ .edge f a b ∈ l := by
  induction l with
  | nil => simp
  | cons e rest ih =>
    intro c
    rw [List.foldl_cons, ih, mem_edgesOf_record, List.mem_cons, or_assoc, eq_comm (a := e)]

theorem mem_offsets_record (c : Coverage) (e : CoverageEvent) :
    f ∈ (c.record e).offsets ↔ f ∈ c.offsets ∨ ∃ o, e = .offset f o := by
  cases e with
  | offset f' o' => simp [record, or_comm]
  | edge f' a' b' => simp [record]

theorem mem_edges_record (c : Coverage) (e : CoverageEvent) :
    f ∈ (c.record e).edges ↔ f ∈ c.edges ∨ ∃ a b, e = .edge f a b := by
  cases e with
  | offset f' o' => simp [record]
  | edge f' a' b' => simp [record, or_comm]

theorem mem_offsets_foldl (l : List CoverageEvent) :
    ∀ c : Coverage, f ∈ (l.foldl record c).offsets ↔ f ∈ c.offsets ∨ ∃ o, .offset f o ∈ l := by
  induction l with
  | nil => simp
  | cons e rest ih =>
    intro c
    simp only [List.foldl_cons, ih, mem_offsets_record, List.mem_cons, exists_or, or_assoc,
      eq_comm (a := e)]

theorem mem_edges_foldl (l : List CoverageEvent) :
    ∀ c : Coverage, f ∈ (l.foldl record c).edges ↔ f ∈ c.edges ∨ ∃ a b, .edge f a b ∈ l := by
  induction l with
  | nil => simp
  | cons e rest ih =>
    intro c
    simp only [List.foldl_cons, ih, mem_edges_record, List.mem_cons, exists_or, or_assoc,
      eq_comm (a := e)]

theorem mem_functions (c : Coverage) : f ∈ c.functions ↔ f ∈ c.offsets ∨ f ∈ c.edges := by
  simp [functions]

end Coverage

/-- What a listener that records coverage holds. -/
def Machine.recorded (listener : Nat) (m : Machine) : Coverage :=
  (m.coverageTo listener).foldl Coverage.record {}

theorem mem_recorded_offsetsOf (m : Machine) (listener : Nat) (name : String) (o : Nat) :
    o ∈ (m.recorded listener).offsetsOf name ↔ (name, o) ∈ m.offsetsTo listener := by
  have hempty : o ∉ ({} : Coverage).offsetsOf name := by simp [Coverage.offsetsOf]
  rw [Machine.recorded, Coverage.mem_offsetsOf_foldl, Machine.offsetsTo, List.mem_filterMap]
  constructor
  · rintro (h | h)
    · exact absurd h hempty
    · exact ⟨_, h, rfl⟩
  · rintro ⟨e, he, hoff⟩
    cases e with
    | offset f' o' =>
      obtain ⟨rfl, rfl⟩ := Prod.mk.inj (Option.some.inj hoff)
      exact .inr he
    | edge f' a b => cases hoff

theorem mem_recorded_edgesOf (m : Machine) (listener : Nat) (name : String) (a b : BlockId) :
    (a, b) ∈ (m.recorded listener).edgesOf name ↔ (name, a, b) ∈ m.edgesTo listener := by
  have hempty : (a, b) ∉ ({} : Coverage).edgesOf name := by simp [Coverage.edgesOf]
  rw [Machine.recorded, Coverage.mem_edgesOf_foldl, Machine.edgesTo, List.mem_filterMap]
  constructor
  · rintro (h | h)
    · exact absurd h hempty
    · exact ⟨_, h, rfl⟩
  · rintro ⟨e, he, hedge⟩
    cases e with
    | offset f' o' => cases hedge
    | edge f' a' b' =>
      obtain ⟨rfl, hab⟩ := Prod.mk.inj (Option.some.inj hedge)
      obtain ⟨rfl, rfl⟩ := Prod.mk.inj hab
      exact .inr he

/-- A recorder names the functions of which it holds an offset or an edge. -/
theorem mem_recorded_functions (m : Machine) (listener : Nat) (name : String) :
    name ∈ (m.recorded listener).functions ↔
      (∃ o, o ∈ (m.recorded listener).offsetsOf name) ∨
        ∃ a b, (a, b) ∈ (m.recorded listener).edgesOf name := by
  rw [Coverage.mem_functions, Machine.recorded, Coverage.mem_offsets_foldl,
    Coverage.mem_edges_foldl]
  simp only [Coverage.mem_offsetsOf_foldl, Coverage.mem_edgesOf_foldl]
  simp [Coverage.offsetsOf, Coverage.edgesOf]

/-- The blocks that the covered part of a trace enters, in order. -/
def enteredBlocks (configs : InstanceId → EngineConfig) (listener : Nat) (trace : List Dispatch) :
    List BlockId :=
  (trace.filter (·.covered configs listener .edges)).filterMap Dispatch.entered?

section
variable {configs : InstanceId → EngineConfig} {listener : Nat}

/-- What the visits of one frame give is what they give in the whole run, if it names the frame. -/
theorem filter_filterMap_visits {β : Type} {g : Visit → Option β} {p : β → Bool} {q : FramePath}
    (h : ∀ v x, g v = some x → p x = decide (v.path = q)) (l : List Visit) :
    (l.filterMap g).filter p = (visitsAt q l).filterMap g := by
  rw [List.filter_filterMap, visitsAt, List.filterMap_filter]
  congr 1
  funext v
  cases hv : g v with
  | none => simp
  | some x =>
    rw [Option.filter_some, h v x hv]

theorem enteredBlocks_eq (q : FramePath) (visits : List Visit) :
    enteredBlocks configs listener ((visits.filterMap Visit.dispatch?).filter (·.path = q)) =
      (visitsAt q visits).filterMap (Visit.entry? configs listener) := by
  rw [filter_filterMap_visits fun v d hd => by rw [(dispatch?_eq_some hd).1]]
  rw [enteredBlocks, List.filter_filterMap, List.filterMap_filterMap]
  rfl

/-- Where the reported edges arrive: at the blocks that the covered part of the trace enters. -/
theorem edgeReports_arrivals (visits : List Visit) :
    (visits.filterMap (Visit.edgeReport? configs listener)).map
        (fun e => (e.path, e.function, e.target)) =
      ((visits.filterMap Visit.dispatch?).filter (·.covered configs listener .edges)).filterMap
        fun d => d.entered?.map fun b => (d.path, d.name, b) := by
  rw [List.map_filterMap, List.filter_filterMap, List.filterMap_filterMap]
  congr 1
  funext v
  unfold Visit.edgeReport? Visit.entry?
  cases hd : v.dispatch? with
  | none => rfl
  | some d =>
    obtain ⟨hpath, hname, -⟩ := dispatch?_eq_some hd
    rw [Option.filter_some]
    split
    · rw [Option.bind_some, Option.bind_some, Option.map_map, hpath, hname]
      rfl
    · rfl

theorem edgeReports_frame {α : Type} {m : Machine} {o : Observed α} {obs : Observers}
    {P : FramePath → Prop} (ho : o.Accounted configs m) (ht : Traced obs P o.visits)
    (listener : Nat) (q : FramePath) :
    let blocks := enteredBlocks configs listener (o.trace.filter (·.path = q))
    ((o.visits.filterMap (Visit.edgeReport? configs listener)).filter (·.path = q)).map
          (fun e => (e.source, e.target)) = (entryBlock :: blocks).zip blocks ∧
      (∀ b ∈ blocks.head?, b = 0) ∧
      ∀ d ∈ o.trace, d.path = q → d.code.WellFormed →
        blocks.IsChain fun b b' => b' ∈ (Graph.build d.code).successors b := by
  intro blocks
  have hblocks : blocks = (visitsAt q o.visits).filterMap (Visit.entry? configs listener) :=
    enteredBlocks_eq q o.visits
  obtain ⟨hzip, hhead, hchain⟩ := frame_edges listener (ht.frames q)
    fun v hv => ho.visits v (List.mem_filter.mp hv).1
  rw [hblocks]
  refine ⟨?_, hhead, fun d hd hq hwf => ?_⟩
  · have hpath : ∀ (v : Visit) (e : EdgeReport), v.edgeReport? configs listener = some e →
        decide (e.path = q) = decide (v.path = q) := by
      intro v e he
      obtain ⟨b, -, rfl⟩ := Option.map_eq_some_iff.mp he
      rfl
    rw [filter_filterMap_visits hpath, List.map_filterMap, ← hzip]
    congr 1
    funext v
    exact Option.map_map ..
  · obtain ⟨v, hv, hvd⟩ := List.mem_filterMap.mp hd
    obtain ⟨hpath, -, hcode⟩ := dispatch?_eq_some hvd
    rw [hcode] at hwf ⊢
    exact hchain v (List.mem_filter.mpr ⟨hv, decide_eq_true (hpath.symm.trans hq)⟩) hwf

end

/-- Coverage and trace reports are exact. Take instances whose probes are installed as their settings
ask for, as instantiation leaves them and calls keep them, host functions that neither see nor make
reports, and any call, followed to its end or as far as the fuel goes. Beside it the same call is
made in the machine without probes; its trace is the plain trace. A listener is told of the offsets,
and a tracer of the instructions with their opcodes, in the part of the plain trace that the settings
select. Edges are told of in the order in which the trace enters blocks. Those of a frame lead from
the entry to block 0 and on through the blocks whose begin occurs in the trace of the frame, each a
successor of the one before it. A recorder holds exactly what was told. -/
theorem reports_exact (env plain : Environment) (hhost : env.host = plain.host) (hb : env.Blind)
    (configs : InstanceId → EngineConfig) (hd : env.Discreet configs) (m : Machine)
    (hm : m.store.Instrumented configs) (fuel : Nat) (path : FramePath) (target : FunctionRef)
    (arguments : List Cell) :
    let run := observe env fuel path target arguments m
    let trace := (observe plain fuel path target arguments m.plain).trace
    execute env fuel target arguments m = run.outcome ∧
      execute plain fuel target arguments m.plain =
        (observe plain fuel path target arguments m.plain).outcome ∧
      run.machine.store.Instrumented configs ∧
      (∀ fuel module entities result m', Module.ProbeFree module →
        instantiate env fuel module entities (configs m.store.instances.size) m =
          some (result, m') → m'.store.Instrumented configs) ∧
      (∀ tracer, run.machine.instructionsTo tracer = m.instructionsTo tracer ++
        (trace.filter (·.traced configs tracer)).map fun d =>
          (d.name, d.offset, d.instruction.opcode)) ∧
      ∀ listener,
        (∀ name, name ∈ (run.machine.recorded listener).functions ↔
          (∃ o, o ∈ (run.machine.recorded listener).offsetsOf name) ∨
            ∃ a b, (a, b) ∈ (run.machine.recorded listener).edgesOf name) ∧
        (run.machine.offsetsTo listener = m.offsetsTo listener ++
          (trace.filter (·.covered configs listener .offsets)).map fun d => (d.name, d.offset)) ∧
        (∀ name o, o ∈ (run.machine.recorded listener).offsetsOf name ↔
          o ∈ (m.recorded listener).offsetsOf name ∨
            ∃ d ∈ trace, d.covered configs listener .offsets = true ∧ d.name = name ∧ d.offset = o) ∧
        ∃ edges : List EdgeReport,
          run.machine.edgesTo listener = m.edgesTo listener ++ edges.map EdgeReport.edge ∧
          edges.map (fun e => (e.path, e.function, e.target)) =
            (trace.filter (·.covered configs listener .edges)).filterMap
              (fun d => d.entered?.map fun b => (d.path, d.name, b)) ∧
          (∀ q, let blocks := enteredBlocks configs listener (trace.filter (·.path = q))
            (edges.filter (·.path = q)).map (fun e => (e.source, e.target)) =
                (entryBlock :: blocks).zip blocks ∧
              (∀ b ∈ blocks.head?, b = 0) ∧
              ∀ d ∈ trace, d.path = q → d.code.WellFormed →
                blocks.IsChain fun b b' => b' ∈ (Graph.build d.code).successors b) ∧
          ∀ name a b, (a, b) ∈ (run.machine.recorded listener).edgesOf name ↔
            (a, b) ∈ (m.recorded listener).edgesOf name ∨
              ∃ e ∈ edges, e.function = name ∧ e.source = a ∧ e.target = b := by
  intro run trace
  have hrun : run.Accounted configs m := observe_accounted hd fuel path target arguments m hm
  have htrace : trace = run.trace :=
    (trace_eq_of_alike (observe_alike hhost hb fuel path target arguments m m.plain
      (plain_view hm).symm)).symm
  refine ⟨execute_eq_observe .., execute_eq_observe .., hrun.accounts.store hm,
    fun _ _ _ _ _ hp hi => instantiate_instrumented hd hp hm hi, fun tracer => ?_,
    fun listener => ⟨mem_recorded_functions _ listener, ?_, fun name o => ?_,
      run.visits.filterMap (Visit.edgeReport? configs listener), edgesTo_eq hrun listener, ?_,
      fun q => ?_, fun name a b => ?_⟩⟩
  · rw [htrace]
    exact instructionsTo_eq hrun tracer
  · rw [htrace]
    exact offsetsTo_eq hrun listener
  · rw [htrace, mem_recorded_offsetsOf, mem_recorded_offsetsOf, offsetsTo_eq hrun listener,
      List.mem_append, List.mem_map]
    simp only [List.mem_filter, Prod.mk.injEq, and_assoc]
  · rw [htrace]
    exact edgeReports_arrivals run.visits
  · rw [htrace]
    exact edgeReports_frame hrun (observe_traced env fuel path target arguments m) listener q
  · rw [mem_recorded_edgesOf, mem_recorded_edgesOf, edgesTo_eq hrun listener, List.mem_append,
      List.mem_map]
    simp only [EdgeReport.edge, Prod.mk.injEq]

/-- A function that calls the host and itself until its argument is zero. -/
def descent : Module where
  types := [⟨[.i32], []⟩, ⟨[], [.i32]⟩]
  imports := [⟨"host", "count", .function ⟨[], [.i32]⟩⟩]
  functions := [{ type := 0, code := {
    instructions := #[.localGet 0, .if_ 8, .call 0, .drop, .localGet 0, .const .i32 1,
      .binary (.int .i32 .sub), .call 1, .end_, .end_]
    maxHeight := 2 } }]

/-- Edges go to listener 0 and instructions to tracer 1. -/
def descentConfig : EngineConfig where
  instrumentation := { listener := some 0, mode := .edges }
  tracer := some 1
  traceInstructions := true

/-- The host counts its calls, and the listener always fails. -/
def descentHost : Environment where
  host := fun _ => HostFunction.count
  listener := fun _ _ => some (.described "full")

def descentMachine : Machine :=
  ((instantiate descentHost 1 descent [.function (.host 0 0) ⟨[], [.i32]⟩] descentConfig {}).map
    (·.2)).getD {}

theorem descent_reports :
    descentHost.Blind ∧ descentHost.Discreet (fun _ => descentConfig) ∧
      instantiate descentHost 1 descent [.function (.host 0 0) ⟨[], [.i32]⟩] descentConfig {} =
        some (.ok 0, descentMachine) ∧
      descentMachine.store.Instrumented (fun _ => descentConfig) ∧
      (observe descentHost 15 [] ⟨0, 1⟩ [1] descentMachine).machine.edgesTo 0 =
        [("$func1", entryBlock, 0), ("$func1", 0, 1), ("$func1", entryBlock, 0), ("$func1", 0, 2),
          ("$func1", 1, 2)] ∧
      ∀ tracer, (observe descentHost 15 [] ⟨0, 1⟩ [1] descentMachine).machine.instructionsTo tracer =
        descentMachine.instructionsTo tracer ++
          ((observe { host := descentHost.host } 15 [] ⟨0, 1⟩ [1] descentMachine.plain).trace.filter
            (·.traced (fun _ => descentConfig) tracer)).map fun d =>
              (d.name, d.offset, d.instruction.opcode) := by
  have hb : descentHost.Blind := Environment.Offered.blind fun _ => .count
  have hd : descentHost.Discreet fun _ => descentConfig := Environment.Offered.discreet fun _ => .count
  have hp : descent.ProbeFree := by
    unfold Module.ProbeFree
    decide
  have hempty : ({} : Machine).store.Instrumented fun _ => descentConfig :=
    fun k i hk => by simp at hk
  have hinst : instantiate descentHost 1 descent [.function (.host 0 0) ⟨[], [.i32]⟩]
      descentConfig {} = some (.ok 0, descentMachine) := rfl
  have hm : descentMachine.store.Instrumented fun _ => descentConfig :=
    instantiate_instrumented hd hp hempty hinst
  refine ⟨hb, hd, hinst, hm, by decide +kernel, ?_⟩
  exact (reports_exact descentHost { host := descentHost.host } rfl hb _ hd _ hm 15 [] ⟨0, 1⟩
    [1]).2.2.2.2.1

end WasmEngine
