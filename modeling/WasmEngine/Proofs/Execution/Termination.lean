import WasmEngine.Proofs.Execution.Budget

/-!
# Metered execution ends

Every instruction takes a tick, and calls that take none only go deeper, which the limit on the
depth stops. So a metered run ends, whatever loops, recursion, chains of imports and indirect calls
there are in the code, if the host functions that it calls return. The proof is by induction on the
depth that is left; within a frame it is by induction on the ticks that are left, and within a host
function by induction on its program.
-/
namespace WasmEngine
set_option autoImplicit false

/-- The host program returns if the calls that it makes in the context it runs in do: the calls that
it makes in contexts of their own return. -/
def HostProgram.Returns (env : Environment) : HostProgram → Machine → Prop
  | .finish _, _ => True
  | .fail _, _ => True
  | .inspect next, m => (next m).Returns env m
  | .update change next, m => next.Returns env (change m)
  | .call .same target arguments next, m => ∀ fuel result m',
    execute env fuel target arguments m = some (result, m') → (next result).Returns env m'
  | .call .fresh target arguments next, m => ∃ fuel result m',
    execute env fuel target arguments (m.withContext {}) = some (result, m') ∧
      (next result).Returns env (m'.withContext m.context)

namespace Call

variable (env : Environment)

/-- If the call runs a host function, that returns if its calls in the same context do, and does
not write the context. -/
def Yields (c : Call) : Prop :=
  ∀ program, c.plan env = .host program → program.KeepsContext ∧ program.Returns env c.machine.enter

/-- The call has an answer. -/
def Ends (c : Call) : Prop := ∃ fuel e, c.answer env fuel = some e

/-- A host function that runs beneath the call calls back in the same context. -/
def IsReentered (c : Call) : Prop := ∃ fuel, ∃ c' ∈ c.calls env fuel, c'.CallsBack env

variable {env} {steady : Prop}

/-- A call of which everything is known that makes it end: it is billed, and the host functions
beneath it return. -/
structure Bounded (env : Environment) (steady : Prop) (c : Call) : Prop extends
  c.Billed env steady where
  returns : ∀ fuel, ∀ c' ∈ c.calls env fuel, c'.Yields env

theorem Bounded.of_makes {c c' : Call} (h : c.Bounded env steady) (hc : c.Makes env c') :
    c'.Bounded env steady :=
  ⟨h.toBilled.of_makes hc, hc.forall_calls h.returns⟩

/-- What is asked of the calls that a call makes: with ticks left they end. -/
def EndsWithTicks (env : Environment) (steady : Prop) (depth : Nat) (c : Call) : Prop :=
  c.Bounded env steady ∧ (c.machine.context.depth = depth →
    ∀ t : Int, c.machine.HasTicks t → -2 ^ 63 ≤ t → t < 2 ^ 63 → (steady → -2 ^ 63 < t) →
      c.Ends env)

end Call

section
variable {env : Environment} {r : Running} {s : FrameState} {m : Machine} {steady : Prop}

/-- A stage of a frame that is seen with enough fuel. -/
def FrameComesTo (env : Environment) (r : Running) (s : FrameState) (m : Machine) (x : Stage) :
    Prop :=
  ∃ fuel, x ∈ frameStages env.toObservers (execute env fuel) r fuel s m

/-- A call of a host program that is seen with enough fuel. -/
def HostComesTo (env : Environment) (program : HostProgram) (m : Machine) (x : Stage) : Prop :=
  ∃ fuel, x ∈ hostStages (execute env fuel) program m

/-- What comes of the rest of a host program after a call comes of the program. -/
theorem HostComesTo.of_same {target : FunctionRef} {arguments : List Cell}
    {next : ExecutionResult → HostProgram} {fuel : Nat} {result : ExecutionResult} {m' : Machine}
    {x : Stage} (hcall : execute env fuel target arguments m = some (result, m'))
    (h : HostComesTo env (next result) m' x) :
    HostComesTo env (.call .same target arguments next) m x := by
  obtain ⟨fuel', hx⟩ := h
  refine ⟨max fuel fuel', ?_⟩
  rw [hostStages, execute_le env (Nat.le_max_left ..) _ _ _ _ hcall]
  exact .tail _ ((hostStages_le (execute_le env (Nat.le_max_right ..))).1.subset hx)

theorem HostComesTo.of_fresh {target : FunctionRef} {arguments : List Cell}
    {next : ExecutionResult → HostProgram} {fuel : Nat} {result : ExecutionResult} {m' : Machine}
    {x : Stage} (hcall : execute env fuel target arguments (m.withContext {}) = some (result, m'))
    (h : HostComesTo env (next result) (m'.withContext m.context) x) :
    HostComesTo env (.call .fresh target arguments next) m x := by
  obtain ⟨fuel', hx⟩ := h
  refine ⟨max fuel fuel', ?_⟩
  rw [hostStages, execute_le env (Nat.le_max_left ..) _ _ _ _ hcall]
  exact (hostStages_le (execute_le env (Nat.le_max_right ..))).1.subset hx

theorem frameComesTo_self : FrameComesTo env r s m (.instruction ⟨r, s, m⟩) := ⟨1, .head _⟩

section
variable {s' : FrameState} {m' m'' : Machine} {x : Stage} {target : FunctionRef} {type : FuncType}
  {result : ExecutionResult} {fuel : Nat} {e : ExecutionResult × Machine}

theorem FrameComesTo.next (hturn : turn env.toObservers r s m = .next s' m')
    (h : FrameComesTo env r s' m' x) : FrameComesTo env r s m x := by
  obtain ⟨fuel, hx⟩ := h
  refine ⟨fuel + 1, .tail _ ?_⟩
  rw [hturn]
  exact (frameStages_le env (execute_le env (Nat.le_succ fuel)) r (Nat.le_refl fuel)).1.subset hx

theorem frameComesTo_call (hturn : turn env.toObservers r s m = .wait target type s' m') :
    FrameComesTo env r s m (.call ⟨target, s'.frame.topmost type.inputs.length, m'⟩) := by
  refine ⟨1, .tail _ ?_⟩
  rw [hturn]
  exact .head _

theorem FrameComesTo.resume (hturn : turn env.toObservers r s m = .wait target type s' m')
    (hcall : execute env fuel target (s'.frame.topmost type.inputs.length) m' = some (result, m''))
    (hresult : aborts result = none) (h : FrameComesTo env r (s'.resume type result) m'' x) :
    FrameComesTo env r s m x := by
  obtain ⟨fuel', hx⟩ := h
  have hle : fuel' ≤ max fuel fuel' + 1 := by omega
  refine ⟨max fuel fuel' + 1, .tail _ ?_⟩
  rw [hturn]
  dsimp only
  rw [execute_le env (by omega) _ _ _ _ hcall]
  dsimp only
  rw [hresult]
  exact .tail _ ((frameStages_le env (execute_le env hle) r (Nat.le_max_right ..)).1.subset hx)

end

/-- A frame ends if the calls that it makes do: each instruction takes a tick, and no call gives one
back. -/
theorem exists_runFrame (steady : Prop) (depth : Nat) :
    ∀ (ticks : Nat) {s : FrameState} {m : Machine} {t : Int}, m.context.depth = depth →
      m.HasTicks t → t ≤ ticks → -2 ^ 63 ≤ t → t < 2 ^ 63 → (steady → -2 ^ 63 < t) →
      (∀ x, FrameComesTo env r s m (.instruction x) → ¬ steady →
        x.machine.context.ticks ≠ Int64.minValue) →
      (∀ c, FrameComesTo env r s m (.call c) → c.EndsWithTicks env steady depth) →
      ∃ fuel e, runFrame env (execute env fuel) r fuel s m = some e := by
  intro ticks
  induction ticks with
  | zero =>
    intro s m t _ hm hticks hlow hhigh hfirst hcounter _
    have hleast := hm.least_lt hlow hfirst (hcounter _ frameComesTo_self)
    obtain ⟨u, hu⟩ := hm
    obtain ⟨hpos, -⟩ | ⟨-, -, hturn⟩ := turn_metered env.toObservers r s hu hleast hhigh
    · omega
    · refine ⟨1, (.trap .outOfTicks, m.withMeter (.holding (t - 1) u)), ?_⟩
      rw [runFrame_succ, hturn]
  | succ ticks ih =>
    intro s m t hdepth hm hticks hlow hhigh hfirst hcounter hcalls
    have hleast := hm.least_lt hlow hfirst (hcounter _ frameComesTo_self)
    cases hturn : turn env.toObservers r s m with
    | done result m' =>
      refine ⟨1, (result, m'), ?_⟩
      rw [runFrame_succ, hturn]
    | next s' m' =>
      have hm' : m'.context.depth = m.context.depth := turn_depth hturn
      obtain ⟨hpos, -, hticks'⟩ := hm.turn hleast hhigh hturn nofun
      obtain ⟨fuel, e, hrun⟩ := ih (hm'.trans hdepth) hticks' (by omega) (by omega) (by omega)
        (fun _ => by omega) (fun x hx => hcounter x (hx.next hturn))
        fun c hc => hcalls c (hc.next hturn)
      exact ⟨fuel + 1, e, runFrame_next hturn hrun⟩
    | wait target type s' m' =>
      have hm' : m'.context.depth = m.context.depth := turn_depth hturn
      obtain ⟨hpos, -, hticks'⟩ := hm.turn hleast hhigh hturn nofun
      obtain ⟨hbounded, hends⟩ := hcalls _ (frameComesTo_call hturn)
      obtain ⟨fuel, ⟨result, m''⟩, hcall⟩ := hends (hm'.trans hdepth) (t - 1) hticks' (by omega)
        (by omega) fun _ => by omega
      cases hresult : aborts result with
      | some kind => exact ⟨fuel + 1, _, runFrame_le (execute_le env (Nat.le_succ fuel)) r
          (Nat.le_refl _) (runFrame_abort hturn hcall hresult)⟩
      | none =>
        have hspends := hbounded.toBilled.spends fuel (t - 1) hticks' (by omega) (by omega)
          fun _ => by omega
        obtain ⟨t', hticks'', hlow', hle, hfloor⟩ := hspends.left _ hcall
        have hends : ¬ aborts result ≠ none := not_not.mpr hresult
        have hm'' := hbounded.toBilled.depth_eq hcall
        obtain ⟨fuel', e, hrun⟩ := ih (hm''.trans (hm'.trans hdepth)) hticks'' (by omega) hlow'
          (by omega) (fun hs => by have := hfloor hs hends; omega)
          (fun x hx => hcounter x (hx.resume hturn hcall hresult))
          fun c hc => hcalls c (hc.resume hturn hcall hresult)
        exact ⟨_, e, runFrame_resume hturn hcall hresult hrun⟩

/-- A host program that returns ends if the calls that it makes in its context do. -/
theorem exists_runHost {program : HostProgram} (hp : program.KeepsContext) (depth : Nat) :
    ∀ {m : Machine} {t : Int}, program.Returns env m → m.context.depth = depth → m.HasTicks t →
      -2 ^ 63 ≤ t → t < 2 ^ 63 → (∀ c, HostComesTo env program m (.call c) → ¬ steady) →
      (∀ c, HostComesTo env program m (.call c) → c.EndsWithTicks env steady depth) →
      ∃ fuel e, runHost (execute env fuel) program m = some e := by
  induction program with
  | finish result => exact fun _ _ _ _ _ _ _ => ⟨0, _, rfl⟩
  | fail failure => exact fun _ _ _ _ _ _ _ => ⟨0, _, rfl⟩
  | inspect next ih => exact fun {m _} => ih m (hp m)
  | update change next ih =>
    intro m t hreturns hdepth hm
    have hcontext := hp.1 m
    exact ih hp.2 hreturns ((congrArg Context.depth hcontext).trans hdepth)
      (hm.of_context_eq hcontext)
  | call scope target arguments next ih =>
    intro m t hreturns hdepth hm hlow hhigh hback hcalls
    cases scope with
    | same =>
      have hself : HostComesTo env (.call .same target arguments next) m
          (.call ⟨target, arguments, m⟩) := ⟨0, .head _⟩
      have hsteady := hback _ hself
      obtain ⟨hbounded, hends⟩ := hcalls _ hself
      obtain ⟨fuel, ⟨result, m'⟩, hcall⟩ := hends hdepth t hm hlow hhigh fun hs => absurd hs hsteady
      have hspends := hbounded.toBilled.spends fuel t hm hlow hhigh fun hs => absurd hs hsteady
      obtain ⟨t', hm', hlow', hle, -⟩ := hspends.left _ hcall
      obtain ⟨fuel', e, hrun⟩ := ih result (hp result) (hreturns fuel result m' hcall)
        ((hbounded.toBilled.depth_eq hcall).trans hdepth) hm' hlow' (by omega)
        (fun c hc => hback c (.of_same hcall hc)) fun c hc => hcalls c (.of_same hcall hc)
      refine ⟨max fuel fuel', e, ?_⟩
      rw [runHost, execute_le env (Nat.le_max_left ..) _ _ _ _ hcall]
      exact runHost_le (execute_le env (Nat.le_max_right ..)) hrun
    | fresh =>
      obtain ⟨fuel, result, m', hcall, hreturns'⟩ := hreturns
      obtain ⟨fuel', e, hrun⟩ := ih result (hp result) hreturns' hdepth (hm.of_context_eq rfl) hlow
        hhigh (fun c hc => hback c (.of_fresh hcall hc)) fun c hc => hcalls c (.of_fresh hcall hc)
      refine ⟨max fuel fuel', e, ?_⟩
      rw [runHost, execute_le env (Nat.le_max_left ..) _ _ _ _ hcall]
      exact runHost_le (execute_le env (Nat.le_max_right ..)) hrun

/-- A host function that ends answers, also if it fails. -/
theorem exists_callHost {invoke : Invoke} {program : HostProgram} {m : Machine}
    {e : Except Failure ExecutionResult × Machine} (hrun : runHost invoke program m = some e) :
    ∃ e', callHost invoke program m = some e' := by
  obtain ⟨result | failure, n⟩ := e
  all_goals
    unfold callHost
    rw [hrun]
    exact ⟨_, rfl⟩

end

namespace Call

variable {env : Environment} {steady : Prop}

/-- A call ends if the calls that it makes do. -/
theorem Bounded.ends_of_calls {c : Call} (h : c.Bounded env steady) {t : Int}
    (hm : c.machine.HasTicks t) (hlow : -2 ^ 63 ≤ t) (hhigh : t < 2 ^ 63)
    (hfirst : steady → -2 ^ 63 < t)
    (hcalls : ∀ c', c.Makes env c' →
      c'.EndsWithTicks env steady (c.machine.context.depth + 1)) : c.Ends env := by
  have hentered : c.machine.enter.HasTicks t := hm
  cases hp : c.plan env with
  | refuse kind =>
    refine ⟨1, (.trap kind, c.machine), ?_⟩
    rw [answer_succ, hp]
  | link target =>
    have hmakes : c.Makes env (c.next target) := by
      refine ⟨0, ?_⟩
      rw [stages, hp]
      exact .head _
    obtain ⟨fuel, e, ha⟩ := (hcalls _ hmakes).2 rfl t hm hlow hhigh hfirst
    refine ⟨fuel + 1, (e.1, e.2.leave), ?_⟩
    rw [answer_succ, hp]
    exact Option.map_eq_some_iff.mpr ⟨e, ha, rfl⟩
  | host program =>
    obtain ⟨hkeeps, hreturns⟩ := h.returns 0 c (mem_calls_self env 0 c) program hp
    have hmakes : ∀ c', HostComesTo env program c.machine.enter (.call c') → c.Makes env c' := by
      rintro c' ⟨fuel, hc'⟩
      refine ⟨fuel, ?_⟩
      rwa [stages, hp]
    obtain ⟨fuel, e, hrun⟩ := exists_runHost hkeeps (c.machine.context.depth + 1) hreturns
      rfl hentered hlow hhigh
      (fun c' hc' hs => h.alone_self hs ⟨⟨program, hp⟩, c', hmakes c' hc'⟩)
      fun c' hc' => hcalls c' (hmakes c' hc')
    obtain ⟨e', hanswer⟩ := exists_callHost hrun
    refine ⟨fuel + 1, (e'.1, e'.2.leave), ?_⟩
    rw [answer_succ, hp]
    exact Option.map_eq_some_iff.mpr ⟨e', hanswer, rfl⟩
  | frame r s =>
    have hmakes : ∀ x, FrameComesTo env r s c.machine.enter x → ∃ fuel, x ∈ c.stages env fuel := by
      rintro x ⟨fuel, hx⟩
      refine ⟨fuel, ?_⟩
      rwa [stages, hp]
    obtain ⟨fuel, e, hrun⟩ := exists_runFrame steady (c.machine.context.depth + 1)
      t.toNat rfl hentered (by omega) hlow hhigh hfirst
      (fun x hx hs => (hmakes _ hx).elim fun fuel hx' => h.counter_self hx' hs)
      fun c' hc' => hcalls c' (hmakes _ hc')
    refine ⟨fuel + 1, (e.1, e.2.leave), ?_⟩
    rw [answer_succ, hp]
    exact Option.map_eq_some_iff.mpr ⟨e, hrun, rfl⟩

/-- A call ends, by induction on the depth that is left. -/
theorem Bounded.ends (left : Nat) : ∀ {c : Call}, c.Bounded env steady →
    callStackLimit ≤ c.machine.context.depth + left → ∀ t : Int, c.machine.HasTicks t →
      -2 ^ 63 ≤ t → t < 2 ^ 63 → (steady → -2 ^ 63 < t) → c.Ends env := by
  induction left with
  | zero =>
    intro c h hleft t hm hlow hhigh hfirst
    exact ⟨1, _, answer_of_limit hleft 0⟩
  | succ left ih =>
    intro c h hleft t hm hlow hhigh hfirst
    refine h.ends_of_calls hm hlow hhigh hfirst fun c' hc' => ⟨h.of_makes hc', fun hdepth => ?_⟩
    exact ih (h.of_makes hc') (by omega)

/-- Calls that are open at once stand one below the other. -/
theorem length_open_le (l : List Call) : ∀ {c : Call},
    (∀ fuel, ∀ c' ∈ c.calls env fuel, c'.KeepsDepth env) → (c :: l).IsChain (Makes env) →
    (∀ c' ∈ c :: l, c'.Entered env) →
      (c :: l).length + c.machine.context.depth ≤ callStackLimit := by
  induction l with
  | nil =>
    intro c _ _ hentered
    have hdepth := depth_lt_of_entered (hentered c (.head _))
    rw [List.length_singleton]
    omega
  | cons c' l ih =>
    intro c hkeeps hchain hentered
    obtain ⟨hmakes, hrest⟩ := List.isChain_cons_cons.mp hchain
    have hlength := ih (hmakes.forall_calls hkeeps) hrest
      fun c'' hc'' => hentered c'' (.tail _ hc'')
    obtain ⟨fuel, hstage⟩ := hmakes
    have hdescends : ∀ c'', .call c'' ∈ c.stages env fuel → c''.Descends env fuel :=
      fun c'' hc'' => descends fuel c'' fun c₃ hc₃ =>
        hkeeps (fuel + 1) c₃ (mem_calls_of_stage env hc'' hc₃)
    have hdepth : c'.machine.context.depth = c.machine.context.depth + 1 :=
      (depth_stages fuel (hkeeps 0 c (mem_calls_self env 0 c))
        fun c'' hc'' => (hdescends c'' hc'').answer).1 _ hstage
    simp only [List.length_cons] at hlength ⊢
    omega

end Call

/-- Metered execution always ends. A call in a metered context whose ticks are above the least value
of their type comes to an answer, if the host functions beneath it return and do not write the
context; it runs at most as many instructions as there are ticks, in all frames and instances
together; and of the calls beneath it no more are open at once than the depth leaves room for. The
last condition concerns host functions that call back in the same context, and only these: the
ticks are taken from a counter of 64 bits, and for it to count, they must not take a tick from its
least value in the end. -/
theorem metered_execution_ends (env : Environment) (c : Call)
    (hmetering : c.machine.context.metering = true)
    (hticks : Int64.minValue < c.machine.context.ticks)
    (hhost : ∀ fuel, ∀ c' ∈ c.calls env fuel, c'.Yields env)
    (hcounter : c.IsReentered env → ∀ fuel, ∀ x ∈ c.moments env fuel,
      x.machine.context.ticks ≠ Int64.minValue) :
    (∃ fuel result n, c.answer env fuel = some (result, n)) ∧
    (∀ fuel, ((c.instructions env fuel).length : Int) ≤ max c.machine.context.ticks.toInt 0) ∧
    ∀ l, (c :: l).IsChain (Call.Makes env) → (∀ c' ∈ c :: l, c'.Entered env) →
      (c :: l).length ≤ callStackLimit - c.machine.context.depth := by
  have hm := Machine.hasTicks_of_metering hmetering
  have hleast : -2 ^ 63 < c.machine.context.ticks.toInt := Int64.lt_iff_toInt_lt.mp hticks
  have hhigh : c.machine.context.ticks.toInt < 2 ^ 63 := Int64.toInt_lt _
  have hbilled : c.Billed env (¬ c.IsReentered env) :=
    { keeps := fun fuel c' hc' program hp => (hhost fuel c' hc' program hp).1
      counter := fun hs => hcounter (not_not.mp hs)
      alone := fun hs fuel c' hc' hback => hs ⟨fuel, c', hc', hback⟩ }
  refine ⟨?_, fun fuel => ?_, fun l hchain hentered => ?_⟩
  · have hbounded : c.Bounded env (¬ c.IsReentered env) := ⟨hbilled, hhost⟩
    obtain ⟨fuel, ⟨result, n⟩, ha⟩ := hbounded.ends callStackLimit (by omega) _ hm (by omega) hhigh
      fun _ => hleast
    exact ⟨fuel, result, n, ha⟩
  · exact (hbilled.spends fuel _ hm (by omega) hhigh fun _ => hleast).bound
  · have hlength := Call.length_open_le l (fun fuel c' hc' program hp =>
      (hhost fuel c' hc' program hp).1.keepsDepth) hchain hentered
    omega

/-- A host function that runs a function in a context of its own and one in the caller's, and
ignores what comes of it. -/
def carelessProgram : HostProgram :=
  .call .fresh ⟨0, 3⟩ [] fun _ => .call .same ⟨0, 2⟩ [] fun _ => .finish .void

/-- A loop around the host function, and two functions of different instances that call each other
through their imports without end. -/
def endlessStore : Store where
  instances := #[
    { functions := #[⟨{}, "careless", 0, .imported (.host 0 0)⟩,
        ⟨{}, "loop", 1, .defined { instructions := #[.call 0, .br ⟨0, 0⟩ 0, .end_] } none⟩,
        ⟨{}, "ping", 2, .defined { instructions := #[.call 4, .end_] } none⟩,
        ⟨{}, "nop", 3, .defined { instructions := #[.nop, .end_] } none⟩,
        ⟨{}, "pong", 4, .imported (.guest ⟨1, 0⟩)⟩] },
    { functions := #[⟨{}, "pong", 0, .defined { instructions := #[.call 1, .end_] } none⟩,
        ⟨{}, "ping", 1, .imported (.guest ⟨0, 2⟩)⟩] }]

theorem endless_recursion_ends :
    let env : Environment := { host := fun _ _ => carelessProgram }
    let loop : Call :=
      ⟨⟨0, 1⟩, [], { store := endlessStore, context := { metering := true, ticks := 6 } }⟩
    Int64.minValue < loop.machine.context.ticks ∧
      (∀ fuel, ∀ c ∈ loop.calls env fuel, c.Yields env) ∧ loop.IsReentered env ∧
      (∀ fuel, ∀ x ∈ loop.moments env fuel, x.machine.context.ticks ≠ Int64.minValue) ∧
      (loop.answer env 30).map (fun e => (e.1, e.2.context.ticks)) =
        some (.trap .outOfTicks, -2) ∧
      (loop.instructions env 30).length = 6 ∧
      (∃ fuel result n, loop.answer env fuel = some (result, n)) ∧
      (∀ fuel, ((loop.instructions env fuel).length : Int) ≤ 6) ∧
      ∀ l, (loop :: l).IsChain (Call.Makes env) → (∀ c ∈ loop :: l, c.Entered env) →
        (loop :: l).length ≤ callStackLimit := by
  intro env loop
  have hanswer : (loop.answer env 30).map (fun e => (e.1, e.2.context.ticks)) =
      some (.trap .outOfTicks, -2) := by decide +kernel
  obtain ⟨e, ha, -⟩ := Option.map_eq_some_iff.mp hanswer
  have hnops : (loop.calls env 30).all fun c =>
      (execute env 5 ⟨0, 3⟩ [] (c.machine.enter.withContext {})).isSome := by decide +kernel
  have hmoments : (loop.moments env 30).all fun x =>
      x.machine.context.ticks != Int64.minValue := by decide +kernel
  have hhosts : (loop.calls env 30).any fun c => !(c.ownMachines env 30).isEmpty := by
    decide +kernel
  have hnop : ∀ fuel, ∀ c ∈ loop.calls env fuel, ∃ result n,
      execute env 5 ⟨0, 3⟩ [] (c.machine.enter.withContext {}) = some (result, n) := by
    intro fuel c hc
    obtain ⟨⟨result, n⟩, hnop⟩ := Option.isSome_iff_exists.mp
      (List.all_eq_true.mp hnops c ((Call.seen_of_answer ha fuel).1 hc))
    exact ⟨result, n, hnop⟩
  have hyields : ∀ fuel, ∀ c ∈ loop.calls env fuel, c.Yields env := by
    intro fuel c hc program hp
    have hplan := c.planned env
    rw [hp] at hplan
    cases hplan with
    | host =>
      obtain ⟨result, n, hnop⟩ := hnop fuel c hc
      exact ⟨fun _ _ => trivial, 5, result, n, hnop, fun _ _ _ _ => trivial⟩
  have hreentered : loop.IsReentered env := by
    obtain ⟨c, hc, hhost⟩ := List.any_eq_true.mp hhosts
    obtain ⟨result, n, hnop⟩ := hnop 30 c hc
    cases hp : c.plan env with
    | host program =>
      have hplan := c.planned env
      rw [hp] at hplan
      cases hplan with
      | host =>
        refine ⟨30, c, hc, ⟨_, hp⟩, ⟨⟨0, 2⟩, [], n.withContext c.machine.enter.context⟩, 5, ?_⟩
        rw [Call.stages, hp]
        change _ ∈ hostStages _ carelessProgram _
        rw [carelessProgram, hostStages, hnop]
        dsimp only
        rw [hostStages]
        exact .head _
    | _ => simp [Call.ownMachines, hp] at hhost
  have hcounter : ∀ fuel, ∀ x ∈ loop.moments env fuel,
      x.machine.context.ticks ≠ Int64.minValue := fun fuel x hx =>
    bne_iff_ne.mp (List.all_eq_true.mp hmoments x ((Call.seen_of_answer ha fuel).2 hx))
  have hends := metered_execution_ends env loop rfl (by decide) hyields fun _ => hcounter
  exact ⟨by decide, hyields, hreentered, hcounter, hanswer, by decide +kernel, hends⟩

end WasmEngine
