import WasmEngine.Proofs.Instrumentation.View

/-!
# Runs that differ in what is observed only

Two runs of the same code from machines with equal views stay in step: they pass the same offsets
with the same operands and locals, make the same calls and end in the same way. Probes, listeners
and tracers are free to differ and to fail. Host functions have to be blind: they neither look at
what the view leaves out nor let it influence what they change.
-/
namespace WasmEngine
set_option autoImplicit false

/-- Outcomes that differ in what is observed only. -/
inductive Outcome.Alike (watched : Nat → Bool) : Outcome → Outcome → Prop
  | goto {m m' : Machine} (pc : Nat) (frame : Frame) (h : m.view watched = m'.view watched) :
      Alike watched (.goto pc frame m) (.goto pc frame m')
  | leave {m m' : Machine} (frame : Frame) (h : m.view watched = m'.view watched) :
      Alike watched (.leave frame m) (.leave frame m')
  | trap {m m' : Machine} (kind : TrapKind) (h : m.view watched = m'.view watched) :
      Alike watched (.trap kind m) (.trap kind m')
  | call {m m' : Machine} (target : FunctionRef) (type : FuncType) (frame : Frame)
      (h : m.view watched = m'.view watched) :
      Alike watched (.call target type frame m) (.call target type frame m')

section
variable {watched : Nat → Bool} {m m' : Machine}

theorem branch_alike (h : m.view watched = m'.view watched) (target : BranchTarget) (arity : Nat)
    (frame : Frame) :
    (Outcome.branch target arity frame m).Alike watched (Outcome.branch target arity frame m') := by
  unfold Outcome.branch
  rw [Machine.interruptRequested_eq h]
  split
  · exact .trap _ h
  · exact .goto _ _ h

theorem ofNumeric_alike (h : m.view watched = m'.view watched) (next : Nat) (frame : Frame)
    (result : Except TrapKind Cell) :
    (Outcome.ofNumeric next frame m result).Alike watched
      (Outcome.ofNumeric next frame m' result) := by
  cases result with
  | ok c => exact .goto _ _ h
  | error kind => exact .trap _ h

theorem stepLoad_alike (h : m.view watched = m'.view watched) (obs obs' : Observers)
    (i : InstanceId) (op : LoadOp) (offset next : Nat) (frame : Frame) :
    (stepLoad obs i op offset next frame m).Alike watched
      (stepLoad obs' i op offset next frame m') := by
  have hr := Machine.reportAccess_view_eq h obs obs' i .read (frame.peek.index + offset) op.width
  unfold stepLoad
  dsimp only
  generalize m.reportAccess obs i .read (frame.peek.index + offset) op.width = n at hr ⊢
  generalize m'.reportAccess obs' i .read (frame.peek.index + offset) op.width = n' at hr ⊢
  rw [Store.memoryOf?_eq (Machine.store_view_eq hr), Store.memories_eq (Machine.store_view_eq hr)]
  split
  · split
    · exact .goto _ _ hr
    · exact .trap _ hr
  · exact .trap _ hr

theorem stepStore_alike (h : m.view watched = m'.view watched) (obs obs' : Observers)
    (i : InstanceId) (op : StoreOp) (offset next : Nat) (frame : Frame) :
    (stepStore obs i op offset next frame m).Alike watched
      (stepStore obs' i op offset next frame m') := by
  have hr := Machine.reportAccess_view_eq h obs obs' i .write ((frame.operand 1).index + offset)
    op.width
  unfold stepStore
  dsimp only
  generalize m.reportAccess obs i .write ((frame.operand 1).index + offset) op.width = n at hr ⊢
  generalize m'.reportAccess obs' i .write ((frame.operand 1).index + offset) op.width = n' at hr ⊢
  rw [Store.memoryOf?_eq (Machine.store_view_eq hr), Store.memories_eq (Machine.store_view_eq hr)]
  split
  · split
    · exact .goto _ _ (Machine.updateStore_view hr
        (Store.updateMemory_view (Machine.store_view_eq hr) _ _))
    · exact .trap _ hr
  · exact .trap _ hr

theorem stepCallIndirect_alike (h : m.view watched = m'.view watched) (i : InstanceId) (type : Nat)
    (frame : Frame) :
    (stepCallIndirect i type frame m).Alike watched (stepCallIndirect i type frame m') := by
  have hs := Machine.store_view_eq h
  unfold stepCallIndirect
  dsimp only
  rw [Store.tableOf?_eq hs, Store.tables_eq hs, Store.moduleType?_eq hs]
  split
  · exact .trap _ h
  · exact .trap _ h
  · rename_i element _
    rw [Store.functionType?_eq hs element.target]
    split
    · exact .call _ _ _ h
    · exact .trap _ h

/-- An instruction does the same in machines with equal views, whoever observes it. -/
theorem step_alike (h : m.view watched = m'.view watched) (obs obs' : Observers) (i : InstanceId)
    (code : Code) (instr : Instruction) (next : Nat) (frame : Frame) :
    (step obs i code instr next frame m).Alike watched
      (step obs' i code instr next frame m') := by
  have hs := Machine.store_view_eq h
  cases instr with
  | unreachable => exact .trap _ h
  | nop => exact .goto _ _ h
  | block => exact .goto _ _ h
  | loop => exact .goto _ _ h
  | probe index => exact .goto _ _ h
  | if_ otherwise => exact .goto _ _ h
  | else_ resume => exact .goto _ _ h
  | end_ =>
    unfold step
    dsimp only
    split
    · exact .leave _ h
    · exact .goto _ _ h
  | br target arity => exact branch_alike h target arity frame
  | brIf target arity =>
    unfold step
    dsimp only
    split
    · exact branch_alike h target arity _
    · exact .goto _ _ h
  | brTable table arity =>
    unfold step
    dsimp only
    split
    · exact branch_alike h _ arity _
    · exact .goto _ _ h
  | return_ => exact .leave _ h
  | call func =>
    unfold step
    dsimp only
    rw [Store.functionType?_eq hs]
    exact .call _ _ _ h
  | callIndirect type => exact stepCallIndirect_alike h i type frame
  | drop => exact .goto _ _ h
  | select => exact .goto _ _ h
  | localGet index => exact .goto _ _ h
  | localSet index => exact .goto _ _ h
  | localTee index => exact .goto _ _ h
  | globalGet index =>
    unfold step
    dsimp only
    rw [Store.globalOf?_eq hs, Store.globals_eq hs]
    exact .goto _ _ h
  | globalSet index =>
    unfold step
    dsimp only
    rw [Store.globalOf?_eq hs]
    split
    · exact .goto _ _ (Machine.updateStore_view h (Store.setGlobal_view hs _ _))
    · exact .goto _ _ h
  | load op offset => exact stepLoad_alike h obs obs' i op offset next frame
  | store op offset => exact stepStore_alike h obs obs' i op offset next frame
  | memorySize =>
    unfold step
    dsimp only
    rw [Store.memoryOf?_eq hs, Store.memories_eq hs]
    exact .goto _ _ h
  | memoryGrow =>
    unfold step
    dsimp only
    rw [Store.memoryOf?_eq hs]
    split
    · rename_i a _
      obtain ⟨hg, hv⟩ := Store.growMemory_view hs a frame.peek.index
      rw [hg]
      exact .goto _ _ (Machine.updateStore_view h hv)
    · exact .goto _ _ h
  | const type value => exact .goto _ _ h
  | unary op => exact ofNumeric_alike h next frame _
  | binary op => exact ofNumeric_alike h next _ _

/-- Frames that run the same instructions of the same code. -/
structure Running.Alike (r r' : Running) : Prop where
  inst : r.inst = r'.inst
  name : r.name = r'.name
  code : r.code = r'.code
  returns : r.returns = r'.returns
  instruction : r.instruction = r'.instruction

/-- States of a frame that differ in the block last reported only. -/
structure FrameState.Alike (s s' : FrameState) : Prop where
  pc : s.pc = s'.pc
  frame : s.frame = s'.frame

inductive Turn.Alike (watched : Nat → Bool) : Turn → Turn → Prop
  | next {s s' : FrameState} {m m' : Machine} (hs : s.Alike s')
      (h : m.view watched = m'.view watched) : Alike watched (.next s m) (.next s' m')
  | done {m m' : Machine} (result : ExecutionResult) (h : m.view watched = m'.view watched) :
      Alike watched (.done result m) (.done result m')
  | wait {s s' : FrameState} {m m' : Machine} (target : FunctionRef) (type : FuncType)
      (hs : s.Alike s') (h : m.view watched = m'.view watched) :
      Alike watched (.wait target type s m) (.wait target type s' m')

theorem reportAt_view (obs : Observers) (r : Running) (s : FrameState) (m : Machine) :
    (reportAt obs r s m).2.view watched = m.view watched := by
  unfold reportAt
  split
  · rfl
  · exact Machine.reportProbe_view ..

theorem toTurn_alike {o o' : Outcome} {r r' : Running} (ho : o.Alike watched o')
    (hr : r.Alike r') (next : Nat) (previous previous' : BlockId) :
    (o.toTurn r next previous).Alike watched (o'.toTurn r' next previous') := by
  cases ho with
  | goto pc frame h => exact .next ⟨rfl, rfl⟩ h
  | leave frame h =>
    have he : r.result frame = r'.result frame := by unfold Running.result; rw [hr.returns]
    dsimp only [Outcome.toTurn]
    rw [he]
    exact .done _ h
  | trap kind h => exact .done _ h
  | call target type frame h => exact .wait target type ⟨rfl, rfl⟩ h

/-- One turn of a frame does the same with and without probes, whoever observes it: the charge is
made once, and the reports are not seen. -/
theorem turn_alike (obs obs' : Observers) {r r' : Running} (hr : r.Alike r') {s s' : FrameState}
    (hs : s.Alike s') (h : m.view watched = m'.view watched) :
    (turn obs r s m).Alike watched (turn obs' r' s' m') := by
  unfold turn
  rw [Machine.context_eq h]
  rcases m'.context.charge with ⟨_ | _, context⟩
  · exact .done _ (Machine.withContext_view h context)
  · dsimp only
    rw [hr.inst, hr.code, hr.instruction, hs.pc, hs.frame]
    refine toTurn_alike (step_alike ?_ obs obs' _ _ _ _ _) hr _ _ _
    rw [reportAt_view, reportAt_view]
    exact Machine.withContext_view h context

end

/-- A state of a run without its observers. -/
structure VisitView where
  path : FramePath
  function : FunctionRef
  inst : InstanceId
  name : String
  code : Code
  returns : Bool
  instruction : Nat → Instruction
  pc : Nat
  frame : Frame
  machine : MachineView

def Visit.view (watched : Nat → Bool) (v : Visit) : VisitView where
  path := v.path
  function := v.function
  inst := v.running.inst
  name := v.running.name
  code := v.running.code
  returns := v.running.returns
  instruction := v.running.instruction
  pc := v.state.pc
  frame := v.state.frame
  machine := v.machine.view watched

/-- Observed computations that differ in what is observed only. -/
structure Observed.Alike {α : Type} (watched : Nat → Bool) (o o' : Observed α) : Prop where
  visits : o.visits.map (Visit.view watched) = o'.visits.map (Visit.view watched)
  result : o.result = o'.result
  machine : o.machine.view watched = o'.machine.view watched

section
variable {watched : Nat → Bool} {m m' : Machine}

namespace Observed

variable {α β : Type}

theorem alike_ended (a : α) (h : m.view watched = m'.view watched) :
    (ended a m).Alike watched (ended a m') :=
  ⟨rfl, rfl, h⟩

theorem alike_andThen {o o' : Observed α} {f f' : α → Machine → Observed β}
    (ho : o.Alike watched o')
    (hf : ∀ a m m', m.view watched = m'.view watched → (f a m).Alike watched (f' a m')) :
    (o.andThen f).Alike watched (o'.andThen f') := by
  obtain ⟨visits, result, m⟩ := o
  obtain ⟨visits', result', m'⟩ := o'
  obtain ⟨hv, hr, hm⟩ := ho
  dsimp only at hv hr hm
  subst hr
  cases result with
  | none => exact ⟨hv, rfl, hm⟩
  | some a =>
    obtain ⟨hv', hr', hm'⟩ := hf a m m' hm
    refine ⟨?_, hr', hm'⟩
    show (visits ++ _).map _ = (visits' ++ _).map _
    rw [List.map_append, List.map_append, hv, hv']

end Observed

/-- Calls that do the same in machines with equal views. -/
def Observe.Alike (watched : Nat → Bool) (invoke invoke' : Observe) : Prop :=
  ∀ path target arguments m m', m.view watched = m'.view watched →
    (invoke path target arguments m).Alike watched (invoke' path target arguments m')

end

/-- The program neither looks at what the view leaves out nor lets it influence what it changes. -/
def HostProgram.Blind : HostProgram → Prop
  | .finish _ => True
  | .fail _ => True
  | .inspect next =>
    (∀ watched m m', Machine.view watched m = Machine.view watched m' → next m = next m') ∧
      ∀ m, (next m).Blind
  | .update change next =>
    (∀ watched m m', Machine.view watched m = Machine.view watched m' →
      (change m).view watched = (change m').view watched) ∧ next.Blind
  | .call _ _ _ next => ∀ result, (next result).Blind

def Environment.Blind (env : Environment) : Prop := ∀ id call, (env.host id call).Blind

section
variable {watched : Nat → Bool}

theorem enter_scope_view {m m' : Machine} (h : m.view watched = m'.view watched)
    (scope : CallScope) : (scope.enter m).view watched = (scope.enter m').view watched := by
  cases scope with
  | same => exact h
  | fresh => exact Machine.withContext_view h {}

theorem leave_scope_view {m m' : Machine} (h : m.view watched = m'.view watched)
    (scope : CallScope) (context : Context) :
    (scope.leave context m).view watched = (scope.leave context m').view watched := by
  cases scope with
  | same => exact h
  | fresh => exact Machine.withContext_view h context

theorem observeHost_alike {invoke invoke' : Observe} (hi : Observe.Alike watched invoke invoke')
    (path : FramePath) (program : HostProgram) :
    program.Blind → ∀ (count : Nat) (m m' : Machine), m.view watched = m'.view watched →
      (observeHost invoke path program count m).Alike watched
        (observeHost invoke' path program count m') := by
  induction program with
  | finish result => exact fun _ _ _ _ h => Observed.alike_ended _ h
  | fail failure => exact fun _ _ _ _ h => Observed.alike_ended _ h
  | inspect next ih =>
    intro hb count m m' h
    unfold observeHost
    rw [hb.1 watched m m' h]
    exact ih m' (hb.2 m') count m m' h
  | update change next ih =>
    intro hb count m m' h
    exact ih hb.2 count (change m) (change m') (hb.1 watched m m' h)
  | call scope target arguments next ih =>
    intro hb count m m' h
    unfold observeHost
    refine Observed.alike_andThen (hi _ _ _ _ _ (enter_scope_view h scope)) ?_
    intro result n n' hn
    rw [Machine.context_eq h]
    exact ih result (hb result) (count + 1) _ _ (leave_scope_view hn scope _)

theorem observeCallHost_alike {invoke invoke' : Observe} (hi : Observe.Alike watched invoke invoke')
    (path : FramePath) {program : HostProgram} (hb : program.Blind) {m m' : Machine}
    (h : m.view watched = m'.view watched) :
    (observeCallHost invoke path program m).Alike watched
      (observeCallHost invoke' path program m') := by
  refine Observed.alike_andThen (observeHost_alike hi path program hb 0 m m' h) ?_
  intro answer n n' hn
  cases answer with
  | ok result => exact Observed.alike_ended _ hn
  | error failure =>
    refine Observed.alike_ended _ ?_
    rw [Machine.emit_view rfl, Machine.emit_view rfl]
    exact hn

theorem observeFrame_alike (env env' : Environment) {invoke invoke' : Observe}
    (hi : Observe.Alike watched invoke invoke') (path : FramePath) (function : FunctionRef)
    {r r' : Running} (hr : r.Alike r') (fuel : Nat) :
    ∀ (count : Nat) (s s' : FrameState) (m m' : Machine), s.Alike s' →
      m.view watched = m'.view watched →
      (observeFrame env invoke path function r fuel count s m).Alike watched
        (observeFrame env' invoke' path function r' fuel count s' m') := by
  induction fuel with
  | zero => exact fun _ _ _ _ _ _ h => ⟨rfl, rfl, h⟩
  | succ fuel ih =>
    intro count s s' m m' hs h
    have hv : Visit.view watched ⟨path, function, r, s, m⟩ =
        Visit.view watched ⟨path, function, r', s', m'⟩ := by
      simp only [Visit.view, hr.inst, hr.name, hr.code, hr.returns, hr.instruction, hs.pc,
        hs.frame, h]
    have hrest : ∀ {o o' : Observed ExecutionResult}, o.Alike watched o' →
        (o.after [⟨path, function, r, s, m⟩]).Alike watched
          (o'.after [⟨path, function, r', s', m'⟩]) := by
      intro o o' ho
      refine ⟨?_, ho.result, ho.machine⟩
      show Visit.view watched _ :: o.visits.map _ = Visit.view watched _ :: o'.visits.map _
      rw [hv, ho.visits]
    unfold observeFrame
    apply hrest
    have ht := turn_alike env.toObservers env'.toObservers hr hs h
    generalize turn env.toObservers r s m = t at ht ⊢
    generalize turn env'.toObservers r' s' m' = t' at ht ⊢
    cases ht with
    | next hs h => exact ih (count + 1) _ _ _ _ hs h
    | done result h => exact Observed.alike_ended _ h
    | wait target type hs h =>
      dsimp only
      rw [hs.frame]
      refine Observed.alike_andThen (hi _ _ _ _ _ h) ?_
      intro result n n' hn
      cases aborts result with
      | some kind => exact Observed.alike_ended _ hn
      | none =>
        refine ih (count + 1) _ _ _ _ ⟨hs.pc, ?_⟩ hn
        unfold FrameState.resume
        rw [hs.frame]

/-- Functions with equal views are entered in frames that run the same instructions. -/
theorem ofFunction_alike {f f' : FunctionInstance} {code code' : Code}
    {instrumented instrumented' : Option InstrumentedCode} (hv : f.view = f'.view)
    (hb : f.body = .defined code instrumented) (hb' : f'.body = .defined code' instrumented')
    (inst : InstanceId) :
    code = code' ∧ (Running.ofFunction inst f code instrumented).Alike
      (Running.ofFunction inst f' code' instrumented') := by
  have ht : f.type = f'.type := congrArg FunctionView.type hv
  have hn : f.name = f'.name := congrArg FunctionView.name hv
  have hbody := congrArg FunctionView.body hv
  simp only [FunctionInstance.view, hb, hb', BodyView.defined.injEq] at hbody
  obtain ⟨rfl, hinstr⟩ := hbody
  refine ⟨rfl, rfl, hn, rfl, ?_, hinstr⟩
  show (!f.type.outputs.isEmpty) = !f'.type.outputs.isEmpty
  rw [ht]

theorem observeBody_alike {env env' : Environment} (hhost : env.host = env'.host)
    (hb : env.Blind) {invoke invoke' : Observe} (hi : Observe.Alike watched invoke invoke')
    (fuel : Nat) (path : FramePath) (target : FunctionRef) (arguments : List Cell)
    {m m' : Machine} (h : m.view watched = m'.view watched) :
    (observeBody env invoke fuel path target arguments m).Alike watched
      (observeBody env' invoke' fuel path target arguments m') := by
  have hf := Store.function?_view_eq (Machine.store_view_eq h) target
  unfold observeBody
  cases hm : m.store.function? target with
  | none =>
    rw [hm, Option.map_none, eq_comm, Option.map_eq_none_iff] at hf
    rw [hf]
    exact Observed.alike_ended _ h
  | some f =>
    rw [hm, Option.map_some, eq_comm, Option.map_eq_some_iff] at hf
    obtain ⟨f', hm', hv⟩ := hf
    rw [hm']
    have hbody := congrArg FunctionView.body hv
    dsimp only
    cases hfb : f.body with
    | imported callee =>
      cases hfb' : f'.body with
      | imported callee' =>
        simp only [FunctionInstance.view, hfb, hfb', BodyView.imported.injEq] at hbody
        subst hbody
        cases callee' with
        | guest next => exact hi _ _ _ _ _ h
        | host id state =>
          dsimp only
          rw [← hhost]
          exact observeCallHost_alike hi path (hb id _) h
      | defined code' instrumented' => simp [FunctionInstance.view, hfb, hfb'] at hbody
    | defined code instrumented =>
      cases hfb' : f'.body with
      | imported callee' => simp [FunctionInstance.view, hfb, hfb'] at hbody
      | defined code' instrumented' =>
        obtain ⟨rfl, hr⟩ := ofFunction_alike hv.symm hfb hfb' target.inst
        exact observeFrame_alike env env' hi path target hr fuel 0 _ _ _ _ ⟨rfl, rfl⟩ h

/-- Calls in machines with equal views stay in step, whoever observes them. -/
theorem observe_alike {env env' : Environment} (hhost : env.host = env'.host) (hb : env.Blind)
    (fuel : Nat) : Observe.Alike watched (observe env fuel) (observe env' fuel) := by
  induction fuel with
  | zero => exact fun _ _ _ _ _ h => ⟨rfl, rfl, h⟩
  | succ fuel ih =>
    intro path target arguments m m' h
    unfold observe
    rw [Machine.context_eq h, Machine.interruptRequested_eq h]
    split
    · exact Observed.alike_ended _ h
    split
    · exact Observed.alike_ended _ h
    refine Observed.alike_andThen
      (observeBody_alike hhost hb ih fuel path target arguments (Machine.enter_view h)) ?_
    exact fun result n n' hn => Observed.alike_ended _ (Machine.leave_view hn)

/-- What is left of an answer without its observers. -/
def answerView {α : Type} (watched : Nat → Bool) (answer : Option (α × Machine)) :
    Option (α × MachineView) :=
  answer.map fun e => (e.1, e.2.view watched)

theorem answerView_some {α : Type} (a : α) {m m' : Machine}
    (h : m.view watched = m'.view watched) :
    answerView watched (some (a, m)) = answerView watched (some (a, m')) :=
  congrArg (fun v => some (a, v)) h

theorem Observed.Alike.answerView_eq {α : Type} {o o' : Observed α} (h : o.Alike watched o') :
    answerView watched o.outcome = answerView watched o'.outcome := by
  obtain ⟨visits, result, m⟩ := o
  obtain ⟨visits', result', m'⟩ := o'
  obtain ⟨-, hr, hm⟩ := h
  dsimp only at hr hm
  subst hr
  cases result with
  | none => rfl
  | some a => exact answerView_some a hm

theorem execute_answerView_eq {env env' : Environment} (hhost : env.host = env'.host)
    (hb : env.Blind) (fuel : Nat) (target : FunctionRef) (arguments : List Cell) {m m' : Machine}
    (h : m.view watched = m'.view watched) :
    answerView watched (execute env fuel target arguments m) =
      answerView watched (execute env' fuel target arguments m') := by
  rw [execute_eq_observe env fuel [], execute_eq_observe env' fuel []]
  exact (observe_alike hhost hb fuel [] target arguments m m' h).answerView_eq

end

end WasmEngine
