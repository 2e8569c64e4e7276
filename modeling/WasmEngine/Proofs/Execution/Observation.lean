import WasmEngine.Execution.Run

/-!
# Observed execution

`execute` only answers once a call has ended. `observe` follows the same call turn by turn and keeps
every state in which a frame was about to run an instruction, also where the fuel is spent before
the call ends. Frames are named by their place in the tree of calls. `execute_eq_observe` says that
the observation changes nothing; every statement on single states of a run is made through it.
-/
namespace WasmEngine
set_option autoImplicit false

/-- What the loop of a frame makes of the instruction it is at. -/
inductive Turn where
  | next (s : FrameState) (m : Machine)
  | done (result : ExecutionResult) (m : Machine)
  /-- A function is called; `s` is the state to go on in, with the arguments still on top. -/
  | wait (target : FunctionRef) (type : FuncType) (s : FrameState) (m : Machine)

/-- An outcome as a turn of the frame that ran the instruction before `next`. -/
def Outcome.toTurn (r : Running) (next : Nat) (previous : BlockId) : Outcome → Turn
  | .goto pc frame m => .next ⟨pc, frame, previous⟩ m
  | .leave frame m => .done (r.result frame) m
  | .trap kind m => .done (.trap kind) m
  | .call target type frame m => .wait target type ⟨next, frame, previous⟩ m

/-- One turn of a frame: the charge, the reports of a probe, and the instruction. -/
def turn (obs : Observers) (r : Running) (s : FrameState) (m : Machine) : Turn :=
  match m.context.charge with
  | (false, context) => .done (.trap .outOfTicks) (m.withContext context)
  | (true, context) =>
    let (s', m') := reportAt obs r s (m.withContext context)
    (step obs r.inst r.code (r.instruction s.pc) (s.pc + 1) s.frame m').toTurn r (s.pc + 1)
      s'.previous

/-- The state of a frame when the function it waits for has returned. -/
def FrameState.resume (s : FrameState) (type : FuncType) (result : ExecutionResult) : FrameState :=
  { s with frame := afterCall type s.frame result }

@[simp] theorem reportAt_pc (obs : Observers) (r : Running) (s : FrameState) (m : Machine) :
    (reportAt obs r s m).1.pc = s.pc := by
  unfold reportAt
  split <;> rfl

@[simp] theorem reportAt_frame (obs : Observers) (r : Running) (s : FrameState) (m : Machine) :
    (reportAt obs r s m).1.frame = s.frame := by
  unfold reportAt
  split <;> rfl

@[simp] theorem reportCoverage_store (obs : Observers) (m : Machine) (function : String)
    (listener : Nat) (e : CoverageEvent) :
    (m.reportCoverage obs function listener e).store = m.store := by
  unfold Machine.reportCoverage
  dsimp only
  split <;> rfl

@[simp] theorem reportInstruction_store (obs : Observers) (m : Machine) (function : String)
    (tracer offset opcode : Nat) :
    (m.reportInstruction obs function tracer offset opcode).store = m.store := by
  unfold Machine.reportInstruction
  dsimp only
  split <;> rfl

@[simp] theorem reportAccess_store (obs : Observers) (m : Machine) (i : InstanceId)
    (kind : AccessKind) (address width : Nat) :
    (m.reportAccess obs i kind address width).store = m.store := by
  unfold Machine.reportAccess
  split
  · rfl
  · dsimp only
    split <;> rfl

@[simp] theorem reportProbe_store (obs : Observers) (m : Machine) (i : InstanceId)
    (function : String) (probe : Probe) (previous : BlockId) :
    (m.reportProbe obs i function probe previous).store = m.store := by
  unfold Machine.reportProbe
  dsimp only
  repeat' split
  all_goals simp only [reportCoverage_store, reportInstruction_store]

@[simp] theorem reportAt_store (obs : Observers) (r : Running) (s : FrameState) (m : Machine) :
    (reportAt obs r s m).2.store = m.store := by
  unfold reportAt
  split
  · rfl
  · exact reportProbe_store ..

/-- A frame runs by taking turns. -/
theorem runFrame_succ (env : Environment) (invoke : Invoke) (r : Running) (fuel : Nat)
    (s : FrameState) (m : Machine) :
    runFrame env invoke r (fuel + 1) s m =
      match turn env.toObservers r s m with
      | .next s m => runFrame env invoke r fuel s m
      | .done result m => some (result, m)
      | .wait target type s m =>
        (invoke target (s.frame.topmost type.inputs.length) m).bind fun (result, m) =>
          match aborts result with
          | some kind => some (.trap kind, m)
          | none => runFrame env invoke r fuel (s.resume type result) m := by
  rw [runFrame]
  unfold turn
  rcases m.context.charge with ⟨paid, context⟩
  cases paid with
  | false => rfl
  | true =>
    dsimp only
    rw [reportAt_pc, reportAt_frame]
    rcases step env.toObservers r.inst r.code (r.instruction s.pc) (s.pc + 1) s.frame
      (reportAt env.toObservers r s (m.withContext context)).2 with
      _ | _ | _ | ⟨target, type, frame, m'⟩
    · rfl
    · rfl
    · rfl
    · dsimp only [Outcome.toTurn]
      rcases invoke target (frame.topmost type.inputs.length) m' with _ | ⟨result, m''⟩ <;> rfl

/-- Where a frame stands in the tree of calls: the numbers of the calls that lead to it, the last
one first. -/
abbrev FramePath := List Nat

/-- A frame about to run the instruction it is at. -/
structure Visit where
  path : FramePath
  function : FunctionRef
  running : Running
  state : FrameState
  machine : Machine

/-- The instruction is run: a tick is left for it. -/
def Visit.dispatched (v : Visit) : Bool := v.machine.context.charge.1

/-- A computation followed up to its end, or up to where its fuel was spent. -/
structure Observed (α : Type) where
  visits : List Visit
  /-- `none` while the computation has not ended. -/
  result : Option α
  /-- The machine at the end, or where the fuel was spent. -/
  machine : Machine

namespace Observed

variable {α β : Type}

def ended (a : α) (m : Machine) : Observed α := ⟨[], some a, m⟩

/-- A computation that has not even begun. -/
def unfinished (m : Machine) : Observed α := ⟨[], none, m⟩

def after (visits : List Visit) (o : Observed α) : Observed α :=
  { o with visits := visits ++ o.visits }

/-- One computation after another, if the first one ends. -/
def andThen (o : Observed α) (f : α → Machine → Observed β) : Observed β :=
  match o.result with
  | none => ⟨o.visits, none, o.machine⟩
  | some a => (f a o.machine).after o.visits

def outcome (o : Observed α) : Option (α × Machine) := o.result.map fun a => (a, o.machine)

@[simp] theorem outcome_after (visits : List Visit) (o : Observed α) :
    (o.after visits).outcome = o.outcome := rfl

theorem outcome_andThen (o : Observed α) (f : α → Machine → Observed β) :
    (o.andThen f).outcome = o.outcome.bind fun e => (f e.1 e.2).outcome := by
  obtain ⟨visits, result, m⟩ := o
  cases result <;> rfl

end Observed

abbrev Observe := FramePath → FunctionRef → List Cell → Machine → Observed ExecutionResult

namespace CallScope

/-- The machine in which a host function makes a call. -/
def enter : CallScope → Machine → Machine
  | .same, m => m
  | .fresh, m => m.withContext {}

/-- The machine in which a host function goes on after a call that it made in the context `c`. -/
def leave (c : Context) : CallScope → Machine → Machine
  | .same, m => m
  | .fresh, m => m.withContext c

@[simp] theorem enter_store (scope : CallScope) (m : Machine) : (scope.enter m).store = m.store := by
  cases scope <;> rfl

@[simp] theorem leave_store (scope : CallScope) (c : Context) (m : Machine) :
    (scope.leave c m).store = m.store := by
  cases scope <;> rfl

end CallScope

/-- Runs a host program that has made `count` calls so far. -/
def observeHost (invoke : Observe) (path : FramePath) :
    HostProgram → Nat → Machine → Observed (Except Failure ExecutionResult)
  | .finish result, _, m => .ended (.ok result) m
  | .fail failure, _, m => .ended (.error failure) m
  | .inspect next, count, m => observeHost invoke path (next m) count m
  | .update change next, count, m => observeHost invoke path next count (change m)
  | .call scope target arguments next, count, m =>
    (invoke (count :: path) target arguments (scope.enter m)).andThen fun result m' =>
      observeHost invoke path (next result) (count + 1) (scope.leave m.context m')

def observeCallHost (invoke : Observe) (path : FramePath) (program : HostProgram) (m : Machine) :
    Observed ExecutionResult :=
  (observeHost invoke path program 0 m).andThen fun answer m =>
    match answer with
    | .ok result => .ended result m
    | .error failure => .ended (.trap .host) (m.emit (.notice (.hostFailed failure)))

/-- Runs a frame of a function that has taken `count` turns so far. -/
def observeFrame (env : Environment) (invoke : Observe) (path : FramePath) (function : FunctionRef)
    (r : Running) : Nat → Nat → FrameState → Machine → Observed ExecutionResult
  | 0, _, _, m => .unfinished m
  | fuel + 1, count, s, m =>
    Observed.after [⟨path, function, r, s, m⟩] <|
      match turn env.toObservers r s m with
      | .next s m => observeFrame env invoke path function r fuel (count + 1) s m
      | .done result m => .ended result m
      | .wait target type s m =>
        (invoke (count :: path) target (s.frame.topmost type.inputs.length) m).andThen
          fun result m =>
            match aborts result with
            | some kind => .ended (.trap kind) m
            | none =>
              observeFrame env invoke path function r fuel (count + 1) (s.resume type result) m

/-- The run of a function that has been found, once it is entered. -/
def observeBody (env : Environment) (invoke : Observe) (fuel : Nat) (path : FramePath)
    (target : FunctionRef) (arguments : List Cell) (m : Machine) : Observed ExecutionResult :=
  match m.store.function? target with
  | none => .ended (.trap .undefinedElement) m
  | some f =>
    match f.body with
    | .imported (.guest next) => invoke (0 :: path) next arguments m
    | .imported (.host id _) => observeCallHost invoke path (env.host id ⟨target, arguments⟩) m
    | .defined code instrumented =>
      observeFrame env invoke path target (.ofFunction target.inst f code instrumented) fuel 0
        ⟨0, .enter arguments code.locals.length code.maxHeight, entryBlock⟩ m

/-- Calls a function and keeps the states it passes. -/
def observe (env : Environment) : Nat → Observe
  | 0, _, _, _, m => .unfinished m
  | fuel + 1, path, target, arguments, m =>
    if callStackLimit ≤ m.context.depth then .ended (.trap .callStackExhausted) m
    else if m.interruptRequested then .ended (.trap .interrupted) m
    else
      (observeBody env (observe env fuel) fuel path target arguments m.enter).andThen
        fun result m => .ended result m.leave

theorem runHost_eq_observeHost {invoke : Invoke} {watch : Observe}
    (h : ∀ path target arguments m,
      invoke target arguments m = (watch path target arguments m).outcome)
    (path : FramePath) (program : HostProgram) :
    ∀ (count : Nat) (m : Machine),
      runHost invoke program m = (observeHost watch path program count m).outcome := by
  induction program with
  | finish result => intro _ _; rfl
  | fail failure => intro _ _; rfl
  | inspect next ih => intro count m; exact ih m count m
  | update change next ih => intro count m; exact ih count (change m)
  | call scope target arguments next ih =>
    intro count m
    rw [observeHost, Observed.outcome_andThen, ← h]
    cases scope with
    | same =>
      rw [runHost]
      rcases hi : invoke target arguments m with _ | ⟨result, m'⟩
      · simp [CallScope.enter, hi]
      · simpa [CallScope.enter, CallScope.leave, hi] using ih result (count + 1) m'
    | fresh =>
      rw [runHost]
      rcases hi : invoke target arguments (m.withContext {}) with _ | ⟨result, m'⟩
      · simp [CallScope.enter, hi]
      · simpa [CallScope.enter, CallScope.leave, hi] using
          ih result (count + 1) (m'.withContext m.context)

theorem callHost_eq_observeCallHost {invoke : Invoke} {watch : Observe}
    (h : ∀ path target arguments m,
      invoke target arguments m = (watch path target arguments m).outcome)
    (path : FramePath) (program : HostProgram) (m : Machine) :
    callHost invoke program m = (observeCallHost watch path program m).outcome := by
  rw [callHost, observeCallHost, Observed.outcome_andThen, runHost_eq_observeHost h path program 0 m]
  rcases (observeHost watch path program 0 m).outcome with _ | ⟨_ | _, m'⟩ <;> rfl

theorem runFrame_eq_observeFrame {invoke : Invoke} {watch : Observe}
    (h : ∀ path target arguments m,
      invoke target arguments m = (watch path target arguments m).outcome)
    (env : Environment) (path : FramePath) (function : FunctionRef) (r : Running) (fuel : Nat) :
    ∀ (count : Nat) (s : FrameState) (m : Machine),
      runFrame env invoke r fuel s m =
        (observeFrame env watch path function r fuel count s m).outcome := by
  induction fuel with
  | zero => intro _ _ _; rfl
  | succ fuel ih =>
    intro count s m
    rw [runFrame_succ, observeFrame, Observed.outcome_after]
    rcases turn env.toObservers r s m with ⟨s', m'⟩ | ⟨result, m'⟩ | ⟨target, type, s', m'⟩
    · exact ih (count + 1) s' m'
    · rfl
    · dsimp only
      rw [Observed.outcome_andThen, ← h]
      congr 1
      funext ⟨result, m''⟩
      dsimp only
      cases aborts result with
      | some kind => rfl
      | none => exact ih (count + 1) (s'.resume type result) m''

/-- Observation changes nothing: a call has an answer exactly when its observation ends, and it is
the same answer. -/
theorem execute_eq_observe (env : Environment) (fuel : Nat) :
    ∀ (path : FramePath) (target : FunctionRef) (arguments : List Cell) (m : Machine),
      execute env fuel target arguments m = (observe env fuel path target arguments m).outcome := by
  induction fuel with
  | zero => intro _ _ _ _; rfl
  | succ fuel ih =>
    intro path target arguments m
    rw [execute, observe]
    split
    · rfl
    split
    · rfl
    rw [Observed.outcome_andThen, observeBody]
    have hs : m.enter.store = m.store := rfl
    rw [hs]
    rcases m.store.function? target with _ | ⟨type, name, index, callee | ⟨code, instrumented⟩⟩
    · rfl
    · cases callee with
      | guest next => rw [← ih (0 :: path), Option.map_eq_bind]; rfl
      | host id state =>
        rw [← callHost_eq_observeCallHost ih path, Option.map_eq_bind]
        rfl
    · rw [← runFrame_eq_observeFrame ih env path target, Option.map_eq_bind]
      rfl

end WasmEngine
