import WasmEngine.Proofs.Execution.Observation

/-!
# The stages of a call

A call is refused, passed on to another instance, or runs a host function or a frame. Its stages are
what it does itself, in order: the instructions that its frame comes to, and the calls that it makes
in the same context. A call that a host function makes in a context of its own is a run of its own
and no stage. Following the calls among the stages gives all calls and all instructions of a run.
-/
namespace WasmEngine
set_option autoImplicit false

/-- A call of a function in a machine. -/
structure Call where
  target : FunctionRef
  arguments : List Cell
  machine : Machine

/-- What becomes of a call. -/
inductive Plan where
  /-- The call ends at once. -/
  | refuse (kind : TrapKind)
  | link (next : FunctionRef)
  | host (program : HostProgram)
  | frame (r : Running) (s : FrameState)

/-- A frame at the instruction it is about to run. -/
structure Moment where
  running : Running
  state : FrameState
  machine : Machine

/-- The instruction is run: a tick is left for it. -/
def Moment.dispatched (x : Moment) : Bool := x.machine.context.charge.1

inductive Stage where
  | instruction (x : Moment)
  | call (c : Call)

/-- The calls that a host program makes in the context in which it runs. -/
def hostStages (invoke : Invoke) : HostProgram → Machine → List Stage
  | .finish _, _ => []
  | .fail _, _ => []
  | .inspect next, m => hostStages invoke (next m) m
  | .update change next, m => hostStages invoke next (change m)
  | .call .same target arguments next, m =>
    .call ⟨target, arguments, m⟩ ::
      match invoke target arguments m with
      | none => []
      | some (result, m) => hostStages invoke (next result) m
  | .call .fresh target arguments next, m =>
    match invoke target arguments (m.withContext {}) with
    | none => []
    | some (result, m') => hostStages invoke (next result) (m'.withContext m.context)

/-- The instructions that a frame comes to and the calls that it makes. -/
def frameStages (obs : Observers) (invoke : Invoke) (r : Running) :
    Nat → FrameState → Machine → List Stage
  | 0, _, _ => []
  | fuel + 1, s, m =>
    .instruction ⟨r, s, m⟩ ::
      match turn obs r s m with
      | .next s m => frameStages obs invoke r fuel s m
      | .done _ _ => []
      | .wait target type s m =>
        .call ⟨target, s.frame.topmost type.inputs.length, m⟩ ::
          match invoke target (s.frame.topmost type.inputs.length) m with
          | none => []
          | some (result, m) =>
            match aborts result with
            | some _ => []
            | none => frameStages obs invoke r fuel (s.resume type result) m

/-- The run of a frame from a state on: its stages and its answer, if it comes to one. -/
inductive FrameRun (obs : Observers) (invoke : Invoke) (r : Running) :
    FrameState → Machine → List Stage → Option (ExecutionResult × Machine) → Prop
  | cut (s : FrameState) (m : Machine) : FrameRun obs invoke r s m [] none
  | next {s s' : FrameState} {m m' : Machine} {l : List Stage}
      {o : Option (ExecutionResult × Machine)} (hturn : turn obs r s m = .next s' m')
      (hrest : FrameRun obs invoke r s' m' l o) :
      FrameRun obs invoke r s m (.instruction ⟨r, s, m⟩ :: l) o
  | done {s : FrameState} {m m' : Machine} {result : ExecutionResult}
      (hturn : turn obs r s m = .done result m') :
      FrameRun obs invoke r s m [.instruction ⟨r, s, m⟩] (some (result, m'))
  | unanswered {s s' : FrameState} {m m' : Machine} {target : FunctionRef} {type : FuncType}
      (hturn : turn obs r s m = .wait target type s' m')
      (hcall : invoke target (s'.frame.topmost type.inputs.length) m' = none) :
      FrameRun obs invoke r s m [.instruction ⟨r, s, m⟩,
        .call ⟨target, s'.frame.topmost type.inputs.length, m'⟩] none
  | aborted {s s' : FrameState} {m m' m'' : Machine} {target : FunctionRef} {type : FuncType}
      {kind : TrapKind} (hturn : turn obs r s m = .wait target type s' m')
      (hcall : invoke target (s'.frame.topmost type.inputs.length) m' = some (.trap kind, m''))
      (hkind : kind ≠ .none) :
      FrameRun obs invoke r s m [.instruction ⟨r, s, m⟩,
        .call ⟨target, s'.frame.topmost type.inputs.length, m'⟩] (some (.trap kind, m''))
  | resumed {s s' : FrameState} {m m' m'' : Machine} {target : FunctionRef} {type : FuncType}
      {result : ExecutionResult} {l : List Stage} {o : Option (ExecutionResult × Machine)}
      (hturn : turn obs r s m = .wait target type s' m')
      (hcall : invoke target (s'.frame.topmost type.inputs.length) m' = some (result, m''))
      (hresult : aborts result = none)
      (hrest : FrameRun obs invoke r (s'.resume type result) m'' l o) :
      FrameRun obs invoke r s m (.instruction ⟨r, s, m⟩ ::
        .call ⟨target, s'.frame.topmost type.inputs.length, m'⟩ :: l) o

theorem aborts_eq_some {result : ExecutionResult} {kind : TrapKind} :
    aborts result = some kind ↔ result = .trap kind ∧ kind ≠ .none := by
  cases result with
  | void => simp [aborts]
  | value c => simp [aborts]
  | trap k => cases k <;> simp [aborts] <;> rintro rfl <;> simp

/-- Every run of a frame is of one of these forms. -/
theorem frameRun (env : Environment) (invoke : Invoke) (r : Running) (fuel : Nat) :
    ∀ (s : FrameState) (m : Machine),
      FrameRun env.toObservers invoke r s m (frameStages env.toObservers invoke r fuel s m)
        (runFrame env invoke r fuel s m) := by
  induction fuel with
  | zero => exact .cut
  | succ fuel ih =>
    intro s m
    rw [runFrame_succ, frameStages]
    cases hturn : turn env.toObservers r s m with
    | next s' m' => exact .next hturn (ih s' m')
    | done result m' => exact .done hturn
    | wait target type s' m' =>
      dsimp only
      cases hcall : invoke target (s'.frame.topmost type.inputs.length) m' with
      | none => exact .unanswered hturn hcall
      | some answer =>
        obtain ⟨result, m''⟩ := answer
        dsimp only [Option.bind_some]
        cases hresult : aborts result with
        | none => exact .resumed hturn hcall hresult (ih _ m'')
        | some kind =>
          obtain ⟨rfl, hkind⟩ := aborts_eq_some.mp hresult
          exact .aborted hturn hcall hkind

namespace Call

variable (env : Environment)

def answer (fuel : Nat) (c : Call) : Option (ExecutionResult × Machine) :=
  execute env fuel c.target c.arguments c.machine

def plan (c : Call) : Plan :=
  if callStackLimit ≤ c.machine.context.depth then .refuse .callStackExhausted
  else if c.machine.interruptRequested then .refuse .interrupted
  else
    match c.machine.store.function? c.target with
    | none => .refuse .undefinedElement
    | some f =>
      match f.body with
      | .imported (.guest next) => .link next
      | .imported (.host id _) => .host (env.host id ⟨c.target, c.arguments⟩)
      | .defined code instrumented => .frame (.ofFunction c.target.inst f code instrumented)
          ⟨0, .enter c.arguments code.locals.length code.maxHeight, entryBlock⟩

/-- The call runs a host function. -/
def RunsHost (c : Call) : Prop := ∃ program, c.plan env = .host program

/-- The call that an imported function is passed on to. -/
def next (c : Call) (target : FunctionRef) : Call := ⟨target, c.arguments, c.machine.enter⟩

/-- The stages of a call whose own calls are made with the given fuel. -/
def stages (fuel : Nat) (c : Call) : List Stage :=
  match c.plan env with
  | .refuse _ => []
  | .link target => [.call (c.next target)]
  | .host program => hostStages (execute env fuel) program c.machine.enter
  | .frame r s => frameStages env.toObservers (execute env fuel) r fuel s c.machine.enter

/-- The call and all calls beneath it. -/
def calls : Nat → Call → List Call
  | 0, c => [c]
  | fuel + 1, c => c :: (c.stages env fuel).flatMap fun
    | .instruction _ => []
    | .call c' => calls fuel c'

/-- The instructions that the call and the calls beneath it run, in order. -/
def instructions : Nat → Call → List Moment
  | 0, _ => []
  | fuel + 1, c => (c.stages env fuel).flatMap fun
    | .instruction x => if x.dispatched then [x] else []
    | .call c' => instructions fuel c'

theorem mem_calls_self (fuel : Nat) (c : Call) : c ∈ c.calls env fuel := by
  cases fuel <;> exact .head _

/-- What is beneath a call that is made is beneath the call that makes it. -/
theorem mem_calls_of_stage {fuel : Nat} {c c' c'' : Call} (hc' : .call c' ∈ c.stages env fuel)
    (hc'' : c'' ∈ c'.calls env fuel) : c'' ∈ c.calls env (fuel + 1) := by
  rw [calls]
  exact .tail _ (List.mem_flatMap.mpr ⟨_, hc', hc''⟩)

/-- Where a plan comes from: limits, or the function that is called. -/
inductive Planned (c : Call) : Plan → Prop
  | refuse {kind : TrapKind}
      (hk : kind ∈ [TrapKind.callStackExhausted, .interrupted, .undefinedElement]) :
      Planned c (.refuse kind)
  | link {f : FunctionInstance} {next : FunctionRef}
      (hf : c.machine.store.function? c.target = some f) (hb : f.body = .imported (.guest next)) :
      Planned c (.link next)
  | host {f : FunctionInstance} {id state : Nat}
      (hf : c.machine.store.function? c.target = some f) (hb : f.body = .imported (.host id state)) :
      Planned c (.host (env.host id ⟨c.target, c.arguments⟩))
  | frame {f : FunctionInstance} {code : Code} {instrumented : Option InstrumentedCode}
      (hf : c.machine.store.function? c.target = some f) (hb : f.body = .defined code instrumented) :
      Planned c (.frame (.ofFunction c.target.inst f code instrumented)
        ⟨0, .enter c.arguments code.locals.length code.maxHeight, entryBlock⟩)

theorem planned (c : Call) : c.Planned env (c.plan env) := by
  unfold plan
  split
  · exact .refuse (by decide)
  split
  · exact .refuse (by decide)
  cases hf : c.machine.store.function? c.target with
  | none => exact .refuse (by decide)
  | some f =>
    dsimp only
    split
    · next hb => exact .link hf hb
    · next hb => exact .host hf hb
    · next hb => exact .frame hf hb

variable {env} {c : Call}

section
variable {f : FunctionInstance} {code : Code} {instrumented : Option InstrumentedCode}
  (hdepth : c.machine.context.depth < callStackLimit) (hflag : c.machine.interruptRequested = false)
  (hf : c.machine.store.function? c.target = some f) (hb : f.body = .defined code instrumented)
include hdepth hflag hf hb

/-- A function of a module is run from its first instruction if no limit is reached. -/
theorem plan_frame : c.plan env = .frame (.ofFunction c.target.inst f code instrumented)
    ⟨0, .enter c.arguments code.locals.length code.maxHeight, entryBlock⟩ := by
  unfold plan
  rw [if_neg (Nat.not_le.mpr hdepth), hflag, if_neg nofun, hf]
  dsimp only
  rw [hb]

theorem plan_defined : ∃ r s, c.plan env = .frame r s := ⟨_, _, plan_frame hdepth hflag hf hb⟩

end

variable (env)

/-- A call does what its plan says, one level deeper. -/
theorem answer_succ (fuel : Nat) (c : Call) :
    c.answer env (fuel + 1) =
      match c.plan env with
      | .refuse kind => some (.trap kind, c.machine)
      | .link target => ((c.next target).answer env fuel).map fun e => (e.1, e.2.leave)
      | .host program =>
        (callHost (execute env fuel) program c.machine.enter).map fun e => (e.1, e.2.leave)
      | .frame r s =>
        (runFrame env (execute env fuel) r fuel s c.machine.enter).map fun e => (e.1, e.2.leave) := by
  unfold answer plan
  rw [execute]
  split
  · rfl
  split
  · rfl
  rcases c.machine.store.function? c.target with
    _ | ⟨type, name, index, (target | ⟨id, state⟩) | ⟨code, instrumented⟩⟩ <;> rfl

end Call

end WasmEngine
