import WasmEngine.Proofs.Execution.FrameContents
import WasmEngine.Proofs.Execution.Interruption
import WasmEngine.Proofs.Execution.Meter
import WasmEngine.Proofs.Linking.ConstantExpression
import WasmEngine.Proofs.Linking.IndexSpaces

/-!
# Constant expressions and the interpreter

The evaluator of constant expressions is a second interpreter, which knows types and imported globals
only. What it accepts has the value that a function made of the instruction returns. It never looks
at a declared global, so a global section has no influence on any initializer or offset but through
the expressions that stand in it.
-/
namespace WasmEngine
set_option autoImplicit false

/-- The context pays for `n` instructions: it is not metered, or as many ticks are left. -/
def Context.Affords (context : Context) (n : Nat) : Prop :=
  context.metering = true → (n : Int) ≤ context.ticks.toInt

theorem Context.Affords.charge {context : Context} {n : Nat} (h : context.Affords (n + 1)) :
    context.charge.1 = true ∧ context.charge.2.Affords n := by
  cases hmetering : context.metering with
  | false =>
    unfold Context.charge
    rw [if_neg (by rw [hmetering]; exact nofun)]
    exact ⟨rfl, fun h => absurd h (by rw [hmetering]; exact nofun)⟩
  | true =>
    have hticks : (n + 1 : Int) ≤ context.ticks.toInt := by exact_mod_cast h hmetering
    have hhigh : context.ticks.toInt < 2 ^ 63 := context.ticks.toInt_lt
    have hself : context.withMeter (.holding context.ticks.toInt context.steps) = context := by
      unfold Context.withMeter Meter.holding
      rw [Int64.ofInt_toInt, ← hmetering]
    have hcharge := context.charge_paid context.steps (t := context.ticks.toInt) (by omega) hhigh
    rw [hself] at hcharge
    rw [hcharge]
    refine ⟨rfl, fun _ => ?_⟩
    change (n : Int) ≤ (Int64.ofInt (context.ticks.toInt - 1)).toInt
    rw [Int64.toInt_ofInt_of_le (by omega) (by omega)]
    omega

/-- Nothing keeps the machine from a call of a function with `n` instructions. -/
structure Machine.Ready (m : Machine) (n : Nat) : Prop where
  depth : m.context.depth < callStackLimit
  calm : m.interruptRequested = false
  paid : m.context.Affords n

/-- The index space of globals of an instance begins with the given ones. -/
def Store.Presents (s : Store) (i : InstanceId) (imported : List Global) : Prop :=
  ∀ (k : Nat) (g : Global), imported[k]? = some g →
    (s.globalOf? i k).bind (s.globals[·]?) = some g

/-- The body of the function is the instruction and `end`, with or without probes, and the function
returns what the instruction leaves. -/
structure FunctionInstance.Returns (f : FunctionInstance) (instr : Instruction) : Prop where
  body : ∃ code instrumented, f.body = .defined code instrumented ∧
    code.instructions = #[instr, .end_] ∧ (instrumented = none ∨
      ∃ sites, code.Admits sites ∧ instrumented = some (.wrap code sites))
  result : f.type.outputs ≠ []

theorem Frame.peek_push {f : Frame} (h : f.top < f.slots.size) (c : Cell) :
    (f.push c).peek = c := by
  unfold Frame.push
  dsimp only
  split
  · next hroom => exact Represents.slot_set_self _ _ _ hroom
  · next hfull =>
    -- the storage ends right above the topmost operand
    have htop : f.top + 1 = f.slots.size := by omega
    rw [htop]
    simp [peek, slot]

section
variable {imported : List Global} {instr : Instruction} {t : ValType} {c : Cell}

theorem Instruction.Pushes.isProbe_eq (h : instr.Pushes imported t c) : instr.isProbe = false := by
  cases h <;> rfl

/-- An instruction of a constant expression pushes the same value when it is run. -/
theorem step_of_pushes {m : Machine} {i : InstanceId} (h : instr.Pushes imported t c)
    (hm : m.store.Presents i imported) (obs : Observers) (code : Code) (next : Nat)
    (frame : Frame) : step obs i code instr next frame m = .goto next (frame.push c) m := by
  cases h with
  | const => rfl
  | globalGet hg =>
    unfold step
    dsimp only
    rw [hm _ _ hg]
    rfl

variable {r : Running} {s : FrameState} {m : Machine}

/-- The turn of a frame at such an instruction. -/
theorem turn_of_pushes (h : instr.Pushes imported t c) (hinstr : r.instruction s.pc = instr)
    (hm : m.store.Presents r.inst imported) (hpaid : m.context.charge.1 = true)
    (obs : Observers) : ∃ previous m', m'.store = m.store ∧ m'.context = m.context.charge.2 ∧
      turn obs r s m = .next ⟨s.pc + 1, s.frame.push c, previous⟩ m' := by
  have hstore := reached_store r s m obs
  refine ⟨(reached r s m obs).1.previous, (reached r s m obs).2, hstore, reportAt_context .., ?_⟩
  rw [turn_paid obs hpaid, hinstr, step_of_pushes h (by rwa [hstore])]
  rfl

/-- The turn of a frame at the last `end` of a function. -/
theorem turn_of_end (hinstr : r.instruction s.pc = .end_) (hlast : s.pc + 1 = r.code.size)
    (hpaid : m.context.charge.1 = true) (obs : Observers) :
    ∃ m', m'.store = m.store ∧ turn obs r s m = .done (r.result s.frame) m' := by
  refine ⟨(reached r s m obs).2, reached_store .., ?_⟩
  rw [turn_paid obs hpaid, hinstr]
  unfold step
  dsimp only
  rw [if_pos hlast]
  rfl

/-- A frame that runs the instruction and `end` returns its value after two turns. -/
theorem runFrame_of_pushes (h : instr.Pushes imported t c) (hr : r.Faithful)
    (hcode : r.code.instructions = #[instr, .end_]) (hreturns : r.returns = true)
    (hstart : s.pc = 0) (hroom : s.frame.top < s.frame.slots.size)
    (hm : m.store.Presents r.inst imported) (hpaid : m.context.Affords 2) (env : Environment)
    (invoke : Invoke) :
    ∃ m', runFrame env invoke r 2 s m = some (.value c, m') ∧ m'.store = m.store := by
  have hfirst : r.instruction s.pc = instr := by
    rw [hr, hcode, hstart]
    rfl
  have hsecond : r.instruction (s.pc + 1) = .end_ := by
    rw [hr, hcode, hstart]
    rfl
  have hlast : s.pc + 1 + 1 = r.code.size := by
    rw [hstart]
    exact (congrArg Array.size hcode).symm
  obtain ⟨hpaid, hrest⟩ := hpaid.charge
  obtain ⟨previous, m₁, hstore, hcontext, hpush⟩ :=
    turn_of_pushes h hfirst hm hpaid env.toObservers
  rw [← hcontext] at hrest
  obtain ⟨m₂, hstore', hend⟩ := turn_of_end (s := ⟨s.pc + 1, s.frame.push c, previous⟩) hsecond
    hlast hrest.charge.1 env.toObservers
  refine ⟨m₂, ?_, hstore'.trans hstore⟩
  rw [runFrame_succ, hpush]
  dsimp only
  rw [runFrame_succ, hend]
  dsimp only
  unfold Running.result
  rw [if_pos hreturns, Frame.peek_push hroom]

/-- A call of a function that is made of the instruction and `end` returns its value. -/
theorem execute_of_pushes (h : instr.Pushes imported t c) {target : FunctionRef}
    {f : FunctionInstance} (hf : m.store.function? target = some f) (hreturns : f.Returns instr)
    (hm : m.store.Presents target.inst imported) (hready : m.Ready 2) (env : Environment)
    {fuel : Nat} (hfuel : 3 ≤ fuel) (arguments : List Cell) :
    ∃ m', execute env fuel target arguments m = some (.value c, m') ∧ m'.store = m.store := by
  obtain ⟨⟨code, instrumented, hbody, hcode, hinstrumented⟩, hresult⟩ := hreturns
  have hfree : code.ProbeFree := by
    intro i hi
    rw [hcode] at hi
    obtain rfl | rfl : i = instr ∨ i = .end_ := by simpa using hi
    · exact h.isProbe_eq
    · rfl
  have hfaithful : (Running.ofFunction target.inst f code instrumented).Faithful := by
    obtain rfl | ⟨sites, hsites, rfl⟩ := hinstrumented
    · exact ofFunction_none_faithful _ _ hfree
    · exact ofFunction_wrap_faithful _ _ hfree hsites
  have houtputs : (Running.ofFunction target.inst f code instrumented).returns = true := by
    unfold Running.ofFunction
    rw [List.isEmpty_eq_false_iff.mpr hresult]
    rfl
  have hroom := (Frame.enter_represents arguments code.locals.length code.maxHeight).top_lt
  have hpaid : m.enter.context.Affords 2 := hready.paid
  obtain ⟨m', hrun, hstore⟩ := runFrame_of_pushes h hfaithful hcode houtputs (m := m.enter)
    (s := ⟨0, .enter arguments code.locals.length code.maxHeight, entryBlock⟩) rfl hroom hm hpaid env
    (execute env 2)
  have hplan := @Call.plan_frame env ⟨target, arguments, m⟩ f code instrumented hready.depth
    hready.calm hf hbody
  have hthree : (Call.mk target arguments m).answer env 3 = some (.value c, m'.leave) := by
    rw [Call.answer_succ, hplan]
    dsimp only
    rw [hrun]
    rfl
  exact ⟨m'.leave, execute_le env hfuel _ _ _ _ hthree, hstore⟩

end

section
variable {s : Store} {module : Module} {entities : List Entity} {config : EngineConfig}
  {a : Allocation}

/-- A list in which a function finds something everywhere keeps its places. -/
theorem getElem?_filterMap_of_isSome {α β : Type} {f : α → Option β} {l : List α}
    (h : ∀ x ∈ l, (f x).isSome) (k : Nat) : (l.filterMap f)[k]? = l[k]?.bind f := by
  induction l generalizing k with
  | nil => rfl
  | cons x rest ih =>
    obtain ⟨y, hy⟩ := Option.isSome_iff_exists.mp (h x (.head _))
    rw [List.filterMap_cons, hy]
    cases k with
    | zero => exact hy.symm
    | succ k => exact ih (fun z hz => h z (.tail _ hz)) k

/-- A new instance presents the globals that its constant expressions read. -/
theorem presents_of_allocate (ha : allocate s module entities config = .ok a) :
    a.store.Presents a.id (Module.importedGlobals s entities) := by
  obtain ⟨hi, globals, tables, memories, -, -, -, rfl⟩ := allocate_eq_ok.mp ha
  obtain ⟨types, -, hglobals⟩ := globalTypes_eq (accepts_of_checkImports hi)
  intro k g hg
  have hread : Module.importedGlobals s entities =
      (entities.filterMap Entity.globalAddr?).filterMap (s.globals[·]?) :=
    (List.filterMap_filterMap ..).symm
  have hstored : ∀ x ∈ entities.filterMap Entity.globalAddr?, (s.globals[x]?).isSome := by
    intro x hx
    obtain ⟨k, hk, rfl⟩ := List.getElem_of_mem hx
    obtain ⟨g, hg, -⟩ := hglobals.get hk (hglobals.length_eq ▸ hk)
    exact Option.isSome_of_eq_some hg
  rw [hread, getElem?_filterMap_of_isSome hstored] at hg
  obtain ⟨address, haddress, hg⟩ := Option.bind_eq_some_iff.mp hg
  have hk := (List.getElem?_eq_some_iff.mp haddress).1
  have hlt := (Array.getElem?_eq_some_iff.mp hg).1
  dsimp only [Store.globalOf?, allocationOf, bareInstance]
  rw [Array.getElem?_push_size, Option.bind_some]
  dsimp only
  rw [List.getElem?_toArray, List.getElem?_append_left hk, haddress, Option.bind_some,
    Array.getElem?_append_left hlt, hg]

variable {globals : List GlobalDef} {a' : Allocation}

/-- The places of the segments do not depend on the global section. -/
theorem place_of_globals (ha : allocate s module entities config = .ok a)
    (ha' : allocate s { module with globals } entities config = .ok a') (imported : List Global) :
    a'.place imported = a.place imported := by
  rw [place_allocate ha', place_allocate ha]
  rfl

/-- A declared global begins alike in every module that declares it. -/
theorem global_of_globals (ha : allocate s module entities config = .ok a)
    (ha' : allocate s { module with globals } entities config = .ok a') {k k' : Nat} {d : GlobalDef}
    (hd : module.globals[k]? = some d) (hd' : globals[k']? = some d) :
    ∃ g, a.store.globals[s.globals.size + k]? = some g ∧
      a'.store.globals[s.globals.size + k']? = some g := by
  obtain ⟨⟨value, type⟩, hg, rfl, hvalue⟩ := global_of_allocate ha hd
  obtain ⟨⟨value', type'⟩, hg', rfl, hvalue'⟩ := global_of_allocate ha' hd'
  obtain rfl := Except.ok.inj (hvalue.symm.trans hvalue')
  exact ⟨_, hg, hg'⟩

end

/-- Constant expressions agree with the interpreter. An expression has a value of the expected type
exactly if, apart from `end`, it is one constant or one read of an imported global of this type. A
function made of that instruction and `end` returns the same cell, in every instance whose globals
begin with the imported ones, whatever its arguments and whether or not it has probes; a new instance
is one of them. Every other expression is refused with an error of its own class: for the first
instruction that is neither a constant, nor `end`, nor a read of an imported global, else for the
number of results, else for the type. If a module is allocated with another global section, every
global that both declare begins alike, and the segments go to the same places or fail alike. -/
theorem constant_expressions_exact (imported : List Global) (expected : ValType)
    (e : ConstantExpression) :
    (∀ c, evalConstant imported expected e = .ok c ↔ e.HasValue imported expected c) ∧
    (∀ c, evalConstant imported expected e = .ok c → ∃ instr, e.body = [instr] ∧
      ∀ (env : Environment) (m : Machine) (target : FunctionRef) (f : FunctionInstance)
        (arguments : List Cell) (fuel : Nat), m.store.function? target = some f →
        f.Returns instr → m.store.Presents target.inst imported → m.Ready 2 → 3 ≤ fuel →
        ∃ m', execute env fuel target arguments m = some (.value c, m') ∧ m'.store = m.store) ∧
    (∀ error, evalConstant imported expected e = .error error ↔ e.Refused imported expected error) ∧
    (∀ error, e.Refused imported expected error → error.code = .globalInitializer) ∧
    ∀ (s : Store) (module : Module) (entities : List Entity) (config : EngineConfig)
      (globals : List GlobalDef) (a a' : Allocation),
      allocate s module entities config = .ok a →
      allocate s { module with globals } entities config = .ok a' →
        a.store.Presents a.id (Module.importedGlobals s entities) ∧
        a'.place (Module.importedGlobals s entities) =
          a.place (Module.importedGlobals s entities) ∧
        ∀ (k k' : Nat) (d : GlobalDef), module.globals[k]? = some d → globals[k']? = some d →
          ∃ g, a.store.globals[s.globals.size + k]? = some g ∧
            a'.store.globals[s.globals.size + k']? = some g := by
  refine ⟨fun c => ConstantExpression.eval_eq_ok_iff, fun c hc => ?_,
    fun error => ConstantExpression.eval_eq_error_iff, fun error herror => ?_,
    fun s module entities config globals a a' ha ha' => ⟨presents_of_allocate ha,
      place_of_globals ha ha' _, fun k k' d hd hd' => global_of_globals ha ha' hd hd'⟩⟩
  · obtain ⟨instr, hbody, hpushes⟩ := ConstantExpression.eval_eq_ok_iff.mp hc
    refine ⟨instr, hbody, fun env m target f arguments fuel hf hreturns hm hready hfuel => ?_⟩
    exact execute_of_pushes hpushes hf hreturns hm hready env hfuel arguments
  · exact herror.code_eq

/-- A module that reads an imported global in a function, in an initializer and in an offset. -/
def basedModule : Module where
  types := [⟨[], [.i32]⟩]
  imports := [⟨"env", "base", .global ⟨.i32, false⟩⟩]
  functions := [{ type := 0, code := { instructions := #[.globalGet 0, .end_], maxHeight := 1 } }]
  memories := [{ min := 1 }]
  globals := [⟨⟨.i32, true⟩, [.const .i32 7, .end_]⟩, ⟨⟨.i32, false⟩, [.globalGet 0, .end_]⟩]
  data := [⟨[.globalGet 0, .end_], [1, 2]⟩]

/-- The read has the value of the imported global, beside a declared global that would overwrite it
if it were seen; a read of the declared global is refused before the results are counted. -/
theorem base_read_alike :
    let base : Global := ⟨1024, ⟨.i32, false⟩⟩
    let s : Store := { globals := #[base] }
    let initializer : GlobalDef := ⟨⟨.i32, false⟩, [.globalGet 0, .end_]⟩
    evalConstant [base] .i32 initializer.init = .ok 1024 ∧
    evalConstant [base] .i32 [.const .i32 7, .const .i32 7, .globalGet 1] =
      .error (.globalNotImported 1) ∧
    ∃ a a', allocate s basedModule [.global (some 0)] {} = .ok a ∧
      allocate s { basedModule with globals := [initializer] } [.global (some 0)] {} = .ok a' ∧
      a'.place [base] = a.place [base] ∧
      (∃ g, a.store.globals[2]? = some g ∧ a'.store.globals[1]? = some g) ∧
      ∃ m', execute {} 3 ⟨0, 0⟩ [] { store := a.store } = some (.value 1024, m') ∧
        m'.store = a.store := by
  intro base s initializer
  obtain ⟨hok, hagrees, -, -, hapart⟩ :=
    constant_expressions_exact [base] .i32 initializer.init
  obtain ⟨-, -, hrefused, -, -⟩ :=
    constant_expressions_exact [base] .i32 [.const .i32 7, .const .i32 7, .globalGet 1]
  have hvalue := (hok 1024).mpr ⟨.globalGet 0, rfl, .globalGet (g := base) rfl⟩
  have hbefore : ∀ i ∈ [Instruction.const .i32 7, .const .i32 7], i.isConstantIn [base] := by decide
  have herror := (hrefused (.globalNotImported 1)).mpr
    (@ConstantExpression.Refused.instruction [base] .i32 _ [] (.globalGet 1) hbefore (by decide))
  obtain ⟨a, ha, hid, f, hf, hreturns⟩ : ∃ a, allocate s basedModule [.global (some 0)] {} = .ok a ∧
      a.id = 0 ∧ ∃ f, a.store.function? ⟨0, 0⟩ = some f ∧ f.Returns (.globalGet 0) :=
    ⟨_, rfl, rfl, _, rfl, ⟨⟨_, none, rfl, rfl, .inl rfl⟩, by decide⟩⟩
  obtain ⟨a', ha'⟩ : ∃ a', allocate s { basedModule with globals := [initializer] }
    [.global (some 0)] {} = .ok a' := ⟨_, rfl⟩
  obtain ⟨hpresents, hplace, hbegins⟩ := hapart s basedModule _ {} _ a a' ha ha'
  obtain ⟨instr, hbody, hruns⟩ := hagrees 1024 hvalue
  obtain rfl : .globalGet 0 = instr := (List.cons.inj hbody).1
  have hready : Machine.Ready { store := a.store } 2 := ⟨Nat.zero_lt_succ _, rfl, nofun⟩
  exact ⟨hvalue, herror, a, a', ha, ha', hplace, hbegins 1 0 initializer rfl rfl,
    hruns {} { store := a.store } ⟨0, 0⟩ f [] 3 hf hreturns (hid ▸ hpresents) hready (by decide)⟩

end WasmEngine
