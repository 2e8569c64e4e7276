import WasmEngine.Proofs.ControlFlow.Blocks
import WasmEngine.Proofs.Instrumentation.Reports
import WasmEngine.Proofs.Linking.Allocation

/-!
# Installed probes

Instantiation installs the probes that the settings ask for. What a frame of such an instance
reports at an offset, and which block it takes for the one entered last, can be read off the
settings, the code and the offset; no probe has to be looked at.
-/
namespace WasmEngine
set_option autoImplicit false

/-- The block that begins at an offset. -/
def Code.entered? (code : Code) (offset : Nat) : Option BlockId :=
  ((Graph.build code).blocks.find? (·.start == offset)).map (·.id)

/-- The reports that settings ask for at an instruction of a function, in a frame that entered the
block `previous` last. -/
def EngineConfig.reports (c : EngineConfig) (name : String) (code : Code) (offset : Nat)
    (instr : Instruction) (previous : BlockId) : List Event :=
  (if c.traces && c.instrumentation.selects name then
    (c.tracer.map fun t => .trace t (.instruction name offset instr.opcode)).toList
  else []) ++
  (if c.coverageOf name = some .offsets then
    (c.instrumentation.listener.map fun l => .coverage l (.offset name offset)).toList
  else []) ++
  if c.coverageOf name = some .edges then
    ((code.entered? offset).bind fun b =>
      c.instrumentation.listener.map fun l => .coverage l (.edge name previous b)).toList
  else []

/-- The block that a frame takes for the one entered last after an instruction. -/
def EngineConfig.nextBlock (c : EngineConfig) (name : String) (code : Code) (offset : Nat)
    (previous : BlockId) : BlockId :=
  if c.coverageOf name = some .edges then (code.entered? offset).getD previous else previous

namespace ProbeSite

/-- The flags that ask for some of the reports. -/
def flagsOf (offset blockEntry trace : Bool) : ProbeFlags :=
  (if offset then ProbeFlags.offset else 0) ||| (if blockEntry then ProbeFlags.blockEntry else 0) |||
    (if trace then ProbeFlags.trace else 0)

/-- Each report that is asked for is among the flags, and no other. -/
theorem flagsOf_has (offset blockEntry trace : Bool) :
    (flagsOf offset blockEntry trace).has ProbeFlags.offset = offset ∧
      (flagsOf offset blockEntry trace).has ProbeFlags.blockEntry = blockEntry ∧
      (flagsOf offset blockEntry trace).has ProbeFlags.trace = trace ∧
      (flagsOf offset blockEntry trace = 0 →
        offset = false ∧ blockEntry = false ∧ trace = false) := by
  cases offset <;> cases blockEntry <;> cases trace <;> decide

/-- The block whose entry is reported at an offset. -/
def entered? (coverage : Option CoverageMode) (code : Code) (offset : Nat) : Option BlockId :=
  if coverage = some .edges then code.entered? offset else none

theorem at?_eq (coverage : Option CoverageMode) (trace : Bool) (code : Code) (offset : Nat) :
    at? coverage trace (Graph.build code) offset =
      let flags := flagsOf (decide (coverage = some .offsets)) (entered? coverage code offset).isSome
        trace
      if flags = 0 then none else some ⟨offset, flags, (entered? coverage code offset).getD 0⟩ := by
  unfold at? flagsOf entered? Code.entered?
  by_cases h : coverage = some .edges
  · simp [h]
  · simp [h]

end ProbeSite

/-- The blocks begin at the block starts, which lie inside the body. -/
theorem Code.entered?_eq (code : Code) (offset : Nat) :
    code.entered? offset =
      if offset ∈ code.blockStarts then some (code.blockOf offset) else none :=
  Graph.find?_start offset

/-- Whatever the settings, behind the probes of a function stand the instructions of its code. -/
theorem instrument?_faithful (config : EngineConfig) (inst : InstanceId) (f : FunctionInstance)
    (name : String) {code : Code} (h : code.ProbeFree) :
    (Running.ofFunction inst f code (config.instrument? name code)).Faithful := by
  unfold EngineConfig.instrument?
  dsimp only
  split
  · exact ofFunction_none_faithful inst f h
  · exact ofFunction_wrap_faithful inst f h (ProbeSite.select_admits ..)

namespace Running.Instrumented

variable {config : EngineConfig} {inst : InstanceId} {r : Running}

theorem faithful (h : r.Instrumented config inst) : r.Faithful := by
  obtain ⟨f, code, hfree, rfl⟩ := h
  exact instrument?_faithful config inst f f.name hfree

/-- The probe that a frame meets at an offset is the one of the site that the settings select
there. -/
theorem probe?_eq (h : r.Instrumented config inst) (pc : Nat) :
    r.probe? pc = if pc < r.code.size then
      (ProbeSite.at? (config.coverageOf r.name) (config.traces && config.instrumentation.selects r.name)
        (Graph.build r.code) pc).map (ProbeSite.probe r.code) else none := by
  obtain ⟨f, code, hfree, rfl⟩ := h
  show _ = if pc < code.size then (ProbeSite.at? (config.coverageOf f.name)
    (config.traces && config.instrumentation.selects f.name) (Graph.build code) pc).map
      (ProbeSite.probe code) else none
  unfold EngineConfig.instrument?
  dsimp only
  generalize config.coverageOf f.name = coverage
  generalize (config.traces && config.instrumentation.selects f.name) = trace
  by_cases hnone : coverage.isNone && !trace
  · rw [if_pos hnone, ofFunction_none_probe? inst f hfree]
    obtain ⟨rfl, rfl⟩ : coverage = none ∧ trace = false := by simpa using hnone
    simp [ProbeSite.at?]
  rw [if_neg hnone]
  by_cases hsite : ∃ site ∈ ProbeSite.select code coverage trace (Graph.build code),
      site.offset = pc
  · obtain ⟨site, hmem, rfl⟩ := hsite
    obtain ⟨hlt, hat⟩ := ProbeSite.mem_select_iff.mp hmem
    rw [ofFunction_wrap_probe? inst f (ProbeSite.select_admits ..) hmem, if_pos hlt, hat]
    rfl
  · have hne : ∀ site ∈ ProbeSite.select code coverage trace (Graph.build code),
        site.offset ≠ pc := fun site hmem he => hsite ⟨site, hmem, he⟩
    rw [ofFunction_wrap_probe?_other inst f hfree hne]
    split
    · rename_i hlt
      cases hat : ProbeSite.at? coverage trace (Graph.build code) pc with
      | none => rfl
      | some site =>
        have ho := ProbeSite.at?_offset hat
        rw [← ho] at hat hlt
        exact absurd ho (hne site (ProbeSite.mem_select_iff.mpr ⟨hlt, hat⟩))
    · rfl

theorem reportsAt_eq (h : r.Instrumented config inst) {s : FrameState} {m : Machine}
    (hl : (m.store.instances[r.inst]?).bind (·.listener) = config.instrumentation.listener)
    (ht : (m.store.instances[r.inst]?).bind (·.tracer) = config.tracer) {instr : Instruction}
    (hi : r.code.instructions[s.pc]? = some instr) :
    r.reportsAt s m = config.reports r.name r.code s.pc instr s.previous := by
  have hlt : s.pc < r.code.size := (Array.getElem?_eq_some_iff.mp hi).1
  have hinstr : r.code.instructions.getD s.pc .unreachable = instr := by
    rw [Array.getD_eq_getD_getElem?, hi, Option.getD_some]
  unfold Running.reportsAt EngineConfig.reports
  rw [h.probe?_eq, if_pos hlt, ProbeSite.at?_eq, hl, ht]
  generalize config.coverageOf r.name = coverage
  generalize (config.traces && config.instrumentation.selects r.name) = trace
  obtain ⟨ho, hb, htr, hzero⟩ := ProbeSite.flagsOf_has (decide (coverage = some .offsets))
    (ProbeSite.entered? coverage r.code s.pc).isSome trace
  generalize ProbeSite.flagsOf (decide (coverage = some .offsets))
    (ProbeSite.entered? coverage r.code s.pc).isSome trace = flags at ho hb htr hzero
  have hedge : (if (ProbeSite.entered? coverage r.code s.pc).isSome = true then
      (config.instrumentation.listener.map fun l => Event.coverage l
        (.edge r.name s.previous ((ProbeSite.entered? coverage r.code s.pc).getD 0))).toList else []) =
      if coverage = some .edges then ((r.code.entered? s.pc).bind fun b =>
        config.instrumentation.listener.map fun l =>
          Event.coverage l (.edge r.name s.previous b)).toList else [] := by
    unfold ProbeSite.entered?
    by_cases hc : coverage = some .edges
    · simp only [hc, if_true]
      cases r.code.entered? s.pc <;> simp
    · simp [hc]
  rw [← hedge]
  dsimp only
  by_cases hf : flags = 0
  · obtain ⟨hoff, hent, rfl⟩ := hzero hf
    simp [hf, of_decide_eq_false hoff, hent]
  · simp [hf, ProbeSite.probe, Probe.reports, ho, hb, htr, hinstr]

theorem previous_eq (h : r.Instrumented config inst) (obs : Observers) (s : FrameState)
    (m : Machine) :
    (reportAt obs r s m).1.previous = config.nextBlock r.name r.code s.pc s.previous := by
  unfold reportAt EngineConfig.nextBlock
  rw [h.probe?_eq]
  by_cases hlt : s.pc < r.code.size
  · rw [if_pos hlt, ProbeSite.at?_eq]
    generalize config.coverageOf r.name = coverage
    generalize (config.traces && config.instrumentation.selects r.name) = trace
    obtain ⟨-, hb, -, hzero⟩ := ProbeSite.flagsOf_has (decide (coverage = some .offsets))
      (ProbeSite.entered? coverage r.code s.pc).isSome trace
    generalize ProbeSite.flagsOf (decide (coverage = some .offsets))
      (ProbeSite.entered? coverage r.code s.pc).isSome trace = flags at hb hzero
    have hnext : (if coverage = some .edges then (r.code.entered? s.pc).getD s.previous
        else s.previous) = (ProbeSite.entered? coverage r.code s.pc).getD s.previous := by
      unfold ProbeSite.entered?
      split <;> rfl
    rw [hnext]
    dsimp only
    by_cases hf : flags = 0
    · have hnone := Option.isSome_eq_false_iff.mp (hzero hf).2.1
      rw [Option.isNone_iff_eq_none] at hnone
      simp [hf, hnone]
    · cases he : ProbeSite.entered? coverage r.code s.pc with
      | none => simp [hf, ProbeSite.probe, hb, he]
      | some b => simp [hf, ProbeSite.probe, hb, he]
  · have hnone : r.code.entered? s.pc = none := by
      rw [Code.entered?_eq, if_neg fun hmem => hlt (r.code.mem_blockStarts.mp hmem).1]
    rw [if_neg hlt, hnone]
    dsimp only
    split <;> rfl

end Running.Instrumented

section
variable {configs : InstanceId → EngineConfig} {module : Module}

theorem allocationOf_instrumented (s : Store) (hp : module.ProbeFree) (entities : List Entity)
    (config : EngineConfig) (globals : List Global) (tables : List Table)
    (memories : List Memory) :
    (allocationOf s module entities config globals tables memories).inst.Instrumented config := by
  refine ⟨rfl, rfl, fun f hf code instrumented hb => ?_⟩
  simp only [allocationOf, bareInstance, List.mem_toArray, List.mem_append, Module.importedFunctions,
    Module.definedFunctions, List.mem_mapIdx] at hf
  rcases hf with ⟨k, hk, rfl⟩ | ⟨k, hk, rfl⟩
  · cases hb
  · cases hb
    exact ⟨hp _ (List.getElem_mem hk), rfl⟩

theorem push_instrumented {s s' : Store} (hs : s.Instrumented configs) {i : ModuleInstance}
    (hi : i.Instrumented (configs s.instances.size))
    (he : s'.instances = s.instances.push i) : s'.Instrumented configs := by
  intro k j hk
  rw [he, Array.getElem?_push] at hk
  split at hk
  · rename_i hsize
    obtain rfl := Option.some.inj hk
    exact hsize ▸ hi
  · exact hs k j hk

theorem notify_store (notices : List Notice) (m : Machine) :
    (m.notify notices).store = m.store := by
  rw [notify_eq]

theorem runStart_instrumented {env : Environment} (hd : env.Discreet configs) {fuel : Nat}
    {a : Allocation} {p : Placement} {start : Nat} {m m' : Machine}
    {result : Except InstantiationError InstanceId} (hm : m.store.Instrumented configs)
    (h : runStart env fuel a p start m = some (result, m')) : m'.store.Instrumented configs := by
  unfold runStart at h
  dsimp only at h
  cases hx : execute env fuel ⟨a.id, start⟩ [] (m.withContext {}) with
  | none => rw [hx] at h; cases h
  | some answer =>
    obtain ⟨x, n⟩ := answer
    have hcontext : (m.withContext {}).store.Instrumented configs := hm
    have hn := execute_instrumented hd hcontext hx
    rw [hx] at h
    cases x with
    | void =>
      obtain ⟨-, rfl⟩ := Prod.mk.inj (Option.some.inj h)
      exact hn
    | value c =>
      obtain ⟨-, rfl⟩ := Prod.mk.inj (Option.some.inj h)
      exact hn
    | trap kind =>
      obtain ⟨-, rfl⟩ := Prod.mk.inj (Option.some.inj h)
      split
      · exact hn.of_instances_eq (retain_instances ..)
      · exact hn

/-- Instantiation leaves every instance as its settings ask for, also when it fails. -/
theorem instantiate_instrumented {env : Environment} (hd : env.Discreet configs) {fuel : Nat}
    {entities : List Entity} (hp : module.ProbeFree) {m m' : Machine}
    {result : Except InstantiationError InstanceId} (hm : m.store.Instrumented configs)
    (h : instantiate env fuel module entities (configs m.store.instances.size) m =
      some (result, m')) : m'.store.Instrumented configs := by
  unfold instantiate at h
  cases ha : allocate m.store module entities (configs m.store.instances.size) with
  | error e =>
    rw [ha] at h
    obtain ⟨-, rfl⟩ := Prod.mk.inj (Option.some.inj h)
    exact hm
  | ok a =>
    rw [ha] at h
    dsimp only at h
    obtain ⟨-, globals, tables, memories, -, -, -, rfl⟩ := allocate_eq_ok.mp ha
    have hinst := allocationOf_instrumented m.store hp entities (configs m.store.instances.size)
      globals tables memories
    have hstore : (allocationOf m.store module entities (configs m.store.instances.size) globals
        tables memories).store.Instrumented configs :=
      push_instrumented hm hinst rfl
    generalize allocationOf m.store module entities (configs m.store.instances.size) globals tables
      memories = a at h hstore
    cases hplace : a.place (Module.importedGlobals m.store entities) with
    | error e =>
      rw [hplace] at h
      obtain ⟨-, rfl⟩ := Prod.mk.inj (Option.some.inj h)
      rwa [notify_store]
    | ok p =>
      rw [hplace] at h
      have hw := hstore.of_instances_eq
        (write_instances p a.id a.inst.memories.head? a.inst.tables.head? a.store)
      dsimp only at h
      cases hstart : module.start with
      | none =>
        rw [hstart] at h
        obtain ⟨-, rfl⟩ := Prod.mk.inj (Option.some.inj h)
        exact hw
      | some start =>
        rw [hstart] at h
        exact runStart_instrumented hd hw h

end

end WasmEngine
