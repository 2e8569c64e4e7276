import WasmEngine.Embedding
import WasmEngine.Proofs.Execution.Effects
import WasmEngine.Proofs.Execution.Stages

/-!
# The depth of calls

A call counts its frame in the context while it is open and takes it back when it ends, however it
ends. So all that a call does happens one level below it, and nothing happens below the limit,
since no call is entered there. This takes host functions that leave the depth alone; calls that
they make in the same context do so by themselves.
-/
namespace WasmEngine
set_option autoImplicit false

/-- The program leaves the depth of the context it runs in alone. -/
def HostProgram.KeepsDepth : HostProgram → Prop
  | .finish _ => True
  | .fail _ => True
  | .inspect next => ∀ m, (next m).KeepsDepth
  | .update change next =>
    (∀ m : Machine, (change m).context.depth = m.context.depth) ∧ next.KeepsDepth
  | .call _ _ _ next => ∀ result, (next result).KeepsDepth

/-- The machines that a host program finds, one for each thing it does. -/
def programMachines (invoke : Invoke) : HostProgram → Machine → List Machine
  | .finish _, m => [m]
  | .fail _, m => [m]
  | .inspect next, m => m :: programMachines invoke (next m) m
  | .update change next, m => m :: programMachines invoke next (change m)
  | .call scope target arguments next, m =>
    m :: match invoke target arguments (scope.enter m) with
      | none => []
      | some (result, m') => programMachines invoke (next result) (scope.leave m.context m')

def Stage.machine : Stage → Machine
  | .instruction x => x.machine
  | .call c => c.machine

namespace Call

variable (env : Environment)

/-- No limit refuses the call, and there is a function to be run. -/
def Entered (c : Call) : Prop := ∀ kind, c.plan env ≠ .refuse kind

/-- If the call runs a host function, that leaves the depth alone. -/
def KeepsDepth (c : Call) : Prop := ∀ program, c.plan env = .host program → program.KeepsDepth

/-- The instructions that the call and the calls beneath it come to, in order. The last one of a
frame may find no tick left. -/
def moments : Nat → Call → List Moment
  | 0, _ => []
  | fuel + 1, c => (c.stages env fuel).flatMap fun
    | .instruction x => [x]
    | .call c' => moments fuel c'

/-- The machines that the host function of a call finds. -/
def ownMachines (fuel : Nat) (c : Call) : List Machine :=
  match c.plan env with
  | .host program => programMachines (execute env fuel) program c.machine.enter
  | .refuse _ | .link _ | .frame _ _ => []

/-- The machines that host functions find in the call and the calls beneath it. -/
def hostMachines : Nat → Call → List Machine
  | 0, _ => []
  | fuel + 1, c => c.ownMachines env fuel ++ (c.stages env fuel).flatMap fun
    | .instruction _ => []
    | .call c' => hostMachines fuel c'

end Call

theorem Context.charge_depth (c : Context) : c.charge.2.depth = c.depth := by
  unfold charge
  split
  · dsimp only
    split <;> rfl
  · rfl

section
variable (obs : Observers) (m : Machine)

theorem reportCoverage_context (function : String) (listener : Nat) (e : CoverageEvent) :
    (m.reportCoverage obs function listener e).context = m.context := by
  unfold Machine.reportCoverage
  dsimp only
  split <;> rfl

theorem reportInstruction_context (function : String) (tracer offset opcode : Nat) :
    (m.reportInstruction obs function tracer offset opcode).context = m.context := by
  unfold Machine.reportInstruction
  dsimp only
  split <;> rfl

theorem reportAccess_context (i : InstanceId) (kind : AccessKind) (address width : Nat) :
    (m.reportAccess obs i kind address width).context = m.context := by
  unfold Machine.reportAccess
  split
  · rfl
  · dsimp only
    split <;> rfl

theorem reportAt_context (r : Running) (s : FrameState) :
    (reportAt obs r s m).2.context = m.context := by
  unfold reportAt
  split
  · rfl
  · unfold Machine.reportProbe
    dsimp only
    repeat' split
    all_goals simp only [reportCoverage_context, reportInstruction_context]

end

section
variable {obs : Observers} {i : InstanceId} {m m' : Machine}

/-- No instruction touches the context. -/
theorem Effect.context_eq (h : Effect obs i m m') : m'.context = m.context := by
  cases h with
  | none => rfl
  | access kind address width => exact reportAccess_context ..
  | write address width value ha => exact reportAccess_context ..
  | setGlobal value ha => rfl
  | grow delta ha => rfl

/-- All that a turn does to the context is the charge. -/
theorem turn_context (obs : Observers) (r : Running) (s : FrameState) (m : Machine) :
    (turn obs r s m).machine.context = m.context.charge.2 := by
  unfold turn
  rcases m.context.charge with ⟨_ | _, context⟩
  · rfl
  · dsimp only
    rw [toTurn_machine, (step_result ..).effect.context_eq]
    exact reportAt_context obs _ r s

theorem turn_depth {r : Running} {s : FrameState} {x : Turn} (hturn : turn obs r s m = x) :
    x.machine.context.depth = m.context.depth := by
  rw [← hturn, turn_context, Context.charge_depth]

end

/-- The calls that are answered give the depth back. -/
def RestoreDepth (invoke : Invoke) (l : List Stage) : Prop :=
  ∀ c, .call c ∈ l → ∀ e, invoke c.target c.arguments c.machine = some e →
    e.2.context.depth = c.machine.context.depth

section
variable {obs : Observers} {invoke : Invoke} {r : Running} {s : FrameState} {m : Machine}
  {l : List Stage} {o : Option (ExecutionResult × Machine)}

/-- A frame stays at its depth if the calls that it makes give the depth back. -/
theorem FrameRun.depth_eq (h : FrameRun obs invoke r s m l o) (hl : RestoreDepth invoke l) :
    (∀ x ∈ l, x.machine.context.depth = m.context.depth) ∧
      ∀ e, o = some e → e.2.context.depth = m.context.depth := by
  induction h with
  | cut => exact ⟨fun _ hx => (by cases hx), fun _ he => (by cases he)⟩
  | @next s _ m m' _ _ hturn _ ih =>
    have hm' : m'.context.depth = m.context.depth := turn_depth hturn
    obtain ⟨hrest, ho⟩ := ih fun c hc => hl c (.tail _ hc)
    rw [hm'] at hrest ho
    exact ⟨List.forall_mem_cons.mpr ⟨rfl, hrest⟩, ho⟩
  | @done s m m' _ hturn =>
    refine ⟨List.forall_mem_singleton.mpr rfl, ?_⟩
    rintro _ ⟨⟩
    exact turn_depth hturn
  | @unanswered s _ m m' _ _ hturn =>
    refine ⟨?_, fun _ he => (by cases he)⟩
    have hdepth : m'.context.depth = m.context.depth := turn_depth hturn
    exact List.forall_mem_cons.mpr ⟨rfl, List.forall_mem_singleton.mpr hdepth⟩
  | @aborted s _ m m' m'' _ _ _ hturn hcall =>
    have hdepth : m'.context.depth = m.context.depth := turn_depth hturn
    refine ⟨List.forall_mem_cons.mpr ⟨rfl, List.forall_mem_singleton.mpr hdepth⟩, ?_⟩
    rintro _ ⟨⟩
    exact (hl _ (.tail _ (.head _)) _ hcall).trans hdepth
  | @resumed s _ m m' m'' _ _ _ _ _ hturn hcall _ _ ih =>
    have hdepth : m'.context.depth = m.context.depth := turn_depth hturn
    have hm'' := (hl _ (.tail _ (.head _)) _ hcall).trans hdepth
    obtain ⟨hrest, ho⟩ := ih fun c hc => hl c (.tail _ (.tail _ hc))
    rw [hm''] at hrest ho
    exact ⟨List.forall_mem_cons.mpr ⟨rfl, List.forall_mem_cons.mpr ⟨hdepth, hrest⟩⟩, ho⟩

/-- So does a host program that leaves the depth alone. -/
theorem runHost_depth {program : HostProgram} (hp : program.KeepsDepth) (m : Machine)
    (hl : RestoreDepth invoke (hostStages invoke program m)) :
    (∀ x ∈ hostStages invoke program m, x.machine.context.depth = m.context.depth) ∧
      (∀ n ∈ programMachines invoke program m, n.context.depth = m.context.depth) ∧
      ∀ e, runHost invoke program m = some e → e.2.context.depth = m.context.depth := by
  induction program generalizing m with
  | finish result =>
    refine ⟨fun _ hx => (by cases hx), List.forall_mem_singleton.mpr rfl, ?_⟩
    rintro _ ⟨⟩
    rfl
  | fail failure =>
    refine ⟨fun _ hx => (by cases hx), List.forall_mem_singleton.mpr rfl, ?_⟩
    rintro _ ⟨⟩
    rfl
  | inspect next ih =>
    obtain ⟨hstages, hmachines, he⟩ := ih m (hp m) m hl
    exact ⟨hstages, List.forall_mem_cons.mpr ⟨rfl, hmachines⟩, he⟩
  | update change next ih =>
    obtain ⟨hstages, hmachines, he⟩ := ih hp.2 (change m) hl
    rw [hp.1] at hstages hmachines he
    exact ⟨hstages, List.forall_mem_cons.mpr ⟨rfl, hmachines⟩, he⟩
  | call scope target arguments next ih =>
    unfold hostStages programMachines runHost
    unfold hostStages at hl
    cases scope with
    | same =>
      dsimp only [CallScope.enter, CallScope.leave] at hl ⊢
      cases ha : invoke target arguments m with
      | none =>
        exact ⟨List.forall_mem_singleton.mpr rfl, List.forall_mem_singleton.mpr rfl,
          fun _ he => (by cases he)⟩
      | some answer =>
        rw [ha] at hl
        have hm' := hl _ (.head _) _ ha
        obtain ⟨hstages, hmachines, he⟩ :=
          ih answer.1 (hp answer.1) answer.2 fun c hc => hl c (.tail _ hc)
        rw [hm'] at hstages hmachines he
        exact ⟨List.forall_mem_cons.mpr ⟨rfl, hstages⟩, List.forall_mem_cons.mpr ⟨rfl, hmachines⟩,
          he⟩
    | fresh =>
      -- whatever becomes of the context of the call, the host goes on in its own
      dsimp only [CallScope.enter, CallScope.leave] at hl ⊢
      cases ha : invoke target arguments (m.withContext {}) with
      | none =>
        exact ⟨fun _ hx => (by cases hx), List.forall_mem_singleton.mpr rfl,
          fun _ he => (by cases he)⟩
      | some answer =>
        rw [ha] at hl
        obtain ⟨hstages, hmachines, he⟩ :=
          ih answer.1 (hp answer.1) (answer.2.withContext m.context) hl
        exact ⟨hstages, List.forall_mem_cons.mpr ⟨rfl, hmachines⟩, he⟩

theorem callHost_depth {program : HostProgram} (hp : program.KeepsDepth) (m : Machine)
    (hl : RestoreDepth invoke (hostStages invoke program m)) :
    ∀ e, callHost invoke program m = some e → e.2.context.depth = m.context.depth := by
  have hrun := (runHost_depth hp m hl).2.2
  unfold callHost
  rcases hr : runHost invoke program m with _ | ⟨failure | result, n⟩
  · exact fun _ he => by cases he
  all_goals
    rintro _ ⟨⟩
    exact hrun _ hr

end

namespace Call

variable {env : Environment} {c : Call}

theorem depth_lt_of_entered (h : c.Entered env) : c.machine.context.depth < callStackLimit := by
  refine Nat.lt_of_not_le fun hlimit => ?_
  exact h .callStackExhausted (if_pos hlimit)

/-- A call that comes to a stage is entered. -/
theorem entered_of_stage {fuel : Nat} {x : Stage} (hx : x ∈ c.stages env fuel) : c.Entered env := by
  intro kind hp
  rw [stages, hp] at hx
  cases hx

theorem entered_of_ownMachine {fuel : Nat} {m : Machine} (hm : m ∈ c.ownMachines env fuel) :
    c.Entered env := by
  intro kind hp
  rw [ownMachines, hp] at hm
  cases hm

/-- At the limit a call traps and leaves everything as it was. -/
theorem answer_of_limit (h : callStackLimit ≤ c.machine.context.depth) (fuel : Nat) :
    c.answer env (fuel + 1) = some (.trap .callStackExhausted, c.machine) := by
  have hp : c.plan env = .refuse .callStackExhausted := if_pos h
  rw [answer_succ, hp]

/-- A call does everything one level below it and comes back, if the calls that it makes come
back. -/
theorem depth_stages (fuel : Nat) (hhost : c.KeepsDepth env)
    (hcalls : RestoreDepth (execute env fuel) (c.stages env fuel)) :
    (∀ x ∈ c.stages env fuel, x.machine.context.depth = c.machine.context.depth + 1) ∧
      (∀ m ∈ c.ownMachines env fuel, m.context.depth = c.machine.context.depth + 1) ∧
      ∀ e, c.answer env (fuel + 1) = some e → e.2.context.depth = c.machine.context.depth := by
  have hleave : ∀ e e' : ExecutionResult × Machine,
      e.2.context.depth = c.machine.context.depth + 1 → (e.1, e.2.leave) = e' →
        e'.2.context.depth = c.machine.context.depth := by
    rintro e _ he rfl
    exact congrArg (· - 1) he
  unfold stages at hcalls ⊢
  rw [answer_succ]
  unfold ownMachines
  cases hp : c.plan env with
  | refuse kind =>
    refine ⟨fun _ hx => (by cases hx), fun _ hm => (by cases hm), ?_⟩
    rintro _ ⟨⟩
    rfl
  | link target =>
    rw [hp] at hcalls
    refine ⟨List.forall_mem_singleton.mpr rfl, fun _ hm => (by cases hm), fun e he => ?_⟩
    obtain ⟨e', ha, hleft⟩ := Option.map_eq_some_iff.mp he
    have hdepth := hcalls _ (.head _) e' ha
    exact hleave e' e hdepth hleft
  | host program =>
    rw [hp] at hcalls
    obtain ⟨hstages, hmachines, -⟩ := runHost_depth (hhost program hp) c.machine.enter hcalls
    refine ⟨hstages, hmachines, fun e he => ?_⟩
    obtain ⟨e', ha, hleft⟩ := Option.map_eq_some_iff.mp he
    exact hleave e' e (callHost_depth (hhost program hp) _ hcalls e' ha) hleft
  | frame r s =>
    rw [hp] at hcalls
    obtain ⟨hstages, ho⟩ :=
      (frameRun env (execute env fuel) r fuel s c.machine.enter).depth_eq hcalls
    refine ⟨hstages, fun _ hm => (by cases hm), fun e he => ?_⟩
    obtain ⟨e', ha, hleft⟩ := Option.map_eq_some_iff.mp he
    exact hleave e' e (ho e' ha) hleft

/-- What happens in the run of a call at the depth `d`: it happens below that depth and not below
the limit, and the depth is given back. -/
structure Descends (env : Environment) (fuel : Nat) (c : Call) : Prop where
  calls : ∀ c' ∈ c.calls env fuel, c.machine.context.depth ≤ c'.machine.context.depth
  moments : ∀ x ∈ c.moments env fuel, c.machine.context.depth < x.machine.context.depth ∧
    x.machine.context.depth ≤ callStackLimit
  hosts : ∀ m ∈ c.hostMachines env fuel, c.machine.context.depth < m.context.depth ∧
    m.context.depth ≤ callStackLimit
  answer : ∀ e, c.answer env fuel = some e → e.2.context.depth = c.machine.context.depth

/-- A call descends if the calls that it makes do. -/
theorem descends_succ {fuel : Nat} (hhost : c.KeepsDepth env)
    (hcalls : ∀ c', .call c' ∈ c.stages env fuel → c'.Descends env fuel) :
    c.Descends env (fuel + 1) := by
  obtain ⟨hstages, hown, ha⟩ := depth_stages fuel hhost fun c' hc' => (hcalls c' hc').answer
  refine ⟨?_, ?_, ?_, ha⟩
  · rw [Call.calls]
    refine List.forall_mem_cons.mpr ⟨Nat.le_refl _, fun c'' hc'' => ?_⟩
    obtain ⟨_ | c', hc', hmem⟩ := List.mem_flatMap.mp hc''
    · cases hmem
    · have hdepth : c'.machine.context.depth = _ := hstages _ hc'
      have hle := (hcalls c' hc').calls c'' hmem
      omega
  · intro x hx
    obtain ⟨y | c', hc', hmem⟩ := List.mem_flatMap.mp hx
    · obtain rfl := List.mem_singleton.mp hmem
      have hdepth : x.machine.context.depth = _ := hstages _ hc'
      have hlimit := depth_lt_of_entered (entered_of_stage hc')
      omega
    · have hdepth : c'.machine.context.depth = _ := hstages _ hc'
      have hx := (hcalls c' hc').moments x hmem
      omega
  · intro m hm
    rcases List.mem_append.mp hm with hm | hm
    · have hdepth := hown m hm
      have hlimit := depth_lt_of_entered (entered_of_ownMachine hm)
      omega
    · obtain ⟨_ | c', hc', hmem⟩ := List.mem_flatMap.mp hm
      · cases hmem
      · have hdepth : c'.machine.context.depth = _ := hstages _ hc'
        have hx := (hcalls c' hc').hosts m hmem
        omega

theorem descends (fuel : Nat) :
    ∀ c : Call, (∀ c' ∈ c.calls env fuel, c'.KeepsDepth env) → c.Descends env fuel := by
  induction fuel with
  | zero =>
    intro c _
    refine ⟨List.forall_mem_singleton.mpr (Nat.le_refl _), fun _ hx => (by cases hx),
      fun _ hm => (by cases hm), fun _ he => (by cases he)⟩
  | succ fuel ih =>
    intro c hhost
    refine descends_succ (hhost c (mem_calls_self env _ c)) fun c' hc' => ?_
    exact ih c' fun c'' hc'' => hhost c'' (mem_calls_of_stage env hc' hc'')

end Call

/-- The depth of calls is bounded and always restored. However a call ends, its context is left at
the depth at which it was found. Every call beneath it that is entered is entered below the limit,
so each instruction and each host function finds a depth between one more than that of the call
and the limit; and a call at the limit traps and leaves everything as it was. -/
theorem depth_bounded_and_restored (env : Environment) (fuel : Nat) (c : Call)
    (hhost : ∀ c' ∈ c.calls env fuel, c'.KeepsDepth env) :
    (∀ result n, c.answer env fuel = some (result, n) →
      n.context.depth = c.machine.context.depth) ∧
    (∀ c' ∈ c.calls env fuel, c'.Entered env →
      c.machine.context.depth ≤ c'.machine.context.depth ∧
        c'.machine.context.depth < callStackLimit) ∧
    (∀ x ∈ c.moments env fuel, c.machine.context.depth + 1 ≤ x.machine.context.depth ∧
      x.machine.context.depth ≤ callStackLimit) ∧
    (∀ m ∈ c.hostMachines env fuel, c.machine.context.depth + 1 ≤ m.context.depth ∧
      m.context.depth ≤ callStackLimit) ∧
    (callStackLimit ≤ c.machine.context.depth → ∀ fuel',
      c.answer env (fuel' + 1) = some (.trap .callStackExhausted, c.machine)) := by
  have hd := Call.descends fuel c hhost
  exact ⟨fun _ _ ha => hd.answer _ ha,
    fun c' hc' hentered => ⟨hd.calls c' hc', Call.depth_lt_of_entered hentered⟩,
    hd.moments, hd.hosts, fun hlimit => Call.answer_of_limit hlimit⟩

/-- One host function calls back into the guest and ignores what comes of it; the others fail. -/
def swallowingHost (id : Nat) : HostFunction := fun _ =>
  match id with
  | 0 => .call .same ⟨0, 2⟩ [] fun _ => .finish .void
  | _ => .fail .undescribed

theorem swallowingHost_keepsDepth (id : Nat) (call : HostCall) :
    (swallowingHost id call).KeepsDepth := by
  unfold swallowingHost
  split
  · exact fun _ => trivial
  · trivial

/-- The host is called twice: the first time it calls back a function that traps. -/
def swallowingStore : Store where
  instances := #[
    { functions := #[⟨{}, "swallow", 0, .imported (.host 0 0)⟩,
        ⟨{}, "main", 1, .defined { instructions := #[.call 0, .call 3, .end_] } none⟩,
        ⟨{}, "trap", 2, .defined { instructions := #[.unreachable, .end_] } none⟩,
        ⟨{}, "fail", 3, .imported (.host 1 0)⟩] }]

theorem swallowed_trap_restores_depth :
    let env : Environment := { host := swallowingHost }
    let main : Call := ⟨⟨0, 1⟩, [], { store := swallowingStore, context := { depth := 5 } }⟩
    (∀ c' ∈ main.calls env 10, c'.KeepsDepth env) ∧
      (main.moments env 10).map (·.machine.context.depth) = [6, 8, 6] ∧
      (main.hostMachines env 10).map (·.context.depth) = [7, 7, 7] ∧
      (∀ x ∈ main.moments env 10, x.machine.context.depth ≤ callStackLimit) ∧
      ∃ n, main.answer env 10 = some (.trap .host, n) ∧ n.context.depth = 5 := by
  intro env main
  have hkeeps : ∀ c : Call, c.KeepsDepth env := by
    intro c program hp
    have hplan := c.planned env
    rw [hp] at hplan
    cases hplan with
    | host => exact swallowingHost_keepsDepth _ ⟨c.target, c.arguments⟩
  have hbounds := depth_bounded_and_restored env 10 main fun c _ => hkeeps c
  have hanswer : (main.answer env 10).map (·.1) = some (.trap .host) := by decide +kernel
  obtain ⟨⟨result, n⟩, ha, rfl⟩ := Option.map_eq_some_iff.mp hanswer
  exact ⟨fun c _ => hkeeps c, by decide +kernel, by decide +kernel,
    fun x hx => (hbounds.2.2.1 x hx).2, n, ha, hbounds.1 _ n ha⟩

end WasmEngine
