import WasmEngine.Proofs.Execution.Meter

/-!
# Metering is a threshold

A computation is followed under every meter at once. If it ends without metering after running a
number of instructions, it ends the same way with at least as many ticks, each instruction taking
one; with fewer it stops at the first instruction that it cannot pay for. This is kept by charging
one more instruction in front and by putting one computation after another, and so it holds for
frames and calls.
-/
namespace WasmEngine
set_option autoImplicit false

def Moment.withMeter (x : Moment) (μ : Meter) : Moment :=
  { x with machine := x.machine.withMeter μ }

/-- A meter that held `t` ticks when `k` instructions have been paid for. -/
def Meter.spent (t : Int) (u : UInt64) (k : Nat) : Meter := .holding (t - k) (u + UInt64.ofNat k)

theorem Meter.spent_zero (t : Int) (u : UInt64) : Meter.spent t u 0 = .holding t u := by
  unfold Meter.spent
  rw [Int.natCast_zero, Int.sub_zero]
  exact congrArg (Meter.holding t) (UInt64.add_zero u)

theorem Meter.spent_add (t : Int) (u : UInt64) (k l : Nat) :
    Meter.spent (t - k) (u + UInt64.ofNat k) l = .spent t u (k + l) := by
  unfold Meter.spent
  rw [UInt64.ofNat_add, UInt64.add_assoc, Int.natCast_add, Int.sub_sub]

/-- How a computation ends, and the instructions that it runs. -/
structure Course where
  answer : Option (ExecutionResult × Machine)
  moments : List Moment

/-- The computation `run` ends without metering, and its cost is the number of its instructions. -/
structure Priced (μ : Meter) (run : Meter → Course) (result : ExecutionResult) (n : Machine) :
    Prop where
  answer : (run μ).answer = some (result, n)
  meter : n.meter = μ
  enough : ∀ (t : Int) (u : UInt64), ((run μ).moments.length : Int) ≤ t → t < 2 ^ 63 →
    (run (.holding t u)).answer = some (result, n.withMeter (.spent t u (run μ).moments.length)) ∧
    (run (.holding t u)).moments.map (·.withMeter μ) = (run μ).moments
  short : ∀ (t : Nat) (u : UInt64), t < (run μ).moments.length → t < 2 ^ 63 →
    ∃ n', (run (.holding t u)).answer = some (.trap .outOfTicks, n') ∧
      n'.meter = .holding (-1) (u + UInt64.ofNat t) ∧
      (run (.holding t u)).moments.map (·.withMeter μ) = (run μ).moments.take t

namespace Priced

variable {μ : Meter} {run first rest : Meter → Course} {result result' : ExecutionResult}
  {n n' : Machine}

/-- What runs no instruction costs nothing. -/
theorem free (hn : n.meter = μ) (h : ∀ ν, run ν = ⟨some (result, n.withMeter ν), []⟩) :
    Priced μ run result n where
  answer := by
    rw [h, ← hn]
    rfl
  meter := hn
  enough t u _ _ := by
    rw [h, h]
    refine ⟨?_, rfl⟩
    dsimp only [List.length_nil]
    rw [Meter.spent_zero]
  short t u ht _ := by
    rw [h] at ht
    cases ht

/-- One more instruction in front costs one more tick. -/
theorem charge (x : Moment)
    (hoff : run μ = ⟨(rest μ).answer, x.withMeter μ :: (rest μ).moments⟩)
    (hpaid : ∀ (t : Int) (u : UInt64), 0 < t → t < 2 ^ 63 → run (.holding t u) =
      ⟨(rest (.holding (t - 1) (u + 1))).answer,
        x.withMeter (.holding t u) :: (rest (.holding (t - 1) (u + 1))).moments⟩)
    (hunpaid : ∀ u, run (.holding 0 u) =
      ⟨some (.trap .outOfTicks, x.machine.withMeter (.holding (-1) u)), []⟩)
    (h : Priced μ rest result n) : Priced μ run result n where
  answer := by
    rw [hoff]
    exact h.answer
  meter := h.meter
  enough t u ht hhigh := by
    rw [hoff, List.length_cons] at ht
    obtain ⟨ha, hm⟩ := h.enough (t - 1) (u + 1) (by omega) (by omega)
    have hspent := Meter.spent_add t u 1 (rest μ).moments.length
    rw [hoff, hpaid t u (by omega) hhigh]
    dsimp only
    rw [ha, List.map_cons, hm, List.length_cons, Nat.add_comm _ 1, ← hspent]
    exact ⟨rfl, rfl⟩
  short t u ht hhigh := by
    rw [hoff, List.length_cons] at ht
    cases t with
    | zero =>
      have hzero := hunpaid u
      refine ⟨x.machine.withMeter (.holding (-1) u), congrArg Course.answer hzero, ?_,
        congrArg (·.moments.map (·.withMeter μ)) hzero⟩
      exact congrArg (Meter.holding (-1)) (UInt64.add_zero u).symm
    | succ t =>
      obtain ⟨n', ha, hn', hm⟩ := h.short t (u + 1) (by omega) (by omega)
      have hticks : ((t + 1 : Nat) : Int) - 1 = t := by omega
      rw [hoff, hpaid _ u (by omega) (by omega), hticks]
      refine ⟨n', ha, ?_, ?_⟩
      · rw [hn', Nat.add_comm t 1, UInt64.ofNat_add, ← UInt64.add_assoc]
        rfl
      · dsimp only
        rw [List.map_cons, hm, List.take_succ_cons]
        rfl

/-- One computation after another: the costs add up. If the first one runs out of ticks, so do
both. -/
theorem bind (hfirst : Priced μ first result' n') (hrest : Priced μ rest result n)
    (hnext : ∀ ν ν', (first ν).answer = some (result', n'.withMeter ν') →
      run ν = ⟨(rest ν').answer, (first ν).moments ++ (rest ν').moments⟩)
    (hstop : ∀ ν m, (first ν).answer = some (.trap .outOfTicks, m) →
      run ν = ⟨some (.trap .outOfTicks, m), (first ν).moments⟩) :
    Priced μ run result n := by
  have hoff : run μ = ⟨(rest μ).answer, (first μ).moments ++ (rest μ).moments⟩ := by
    refine hnext μ μ (hfirst.answer.trans ?_)
    rw [← hfirst.meter]
    rfl
  refine ⟨?_, hrest.meter, fun t u ht hhigh => ?_, fun t u ht hhigh => ?_⟩
  · rw [hoff]
    exact hrest.answer
  · rw [hoff, List.length_append] at ht
    obtain ⟨ha, hm⟩ := hfirst.enough t u (by omega) hhigh
    obtain ⟨ha', hm'⟩ := hrest.enough (t - (first μ).moments.length)
      (u + UInt64.ofNat (first μ).moments.length) (by omega) (by omega)
    rw [hoff, hnext _ _ ha, List.length_append]
    dsimp only
    rw [List.map_append, hm, ← Meter.spent_add]
    exact ⟨ha', congrArg _ hm'⟩
  · rw [hoff, List.length_append] at ht
    -- the ticks end in the first computation, or they pay for it and end in the second one
    by_cases hlt : t < (first μ).moments.length
    · obtain ⟨m, ha, hmeter, hm⟩ := hfirst.short t u hlt hhigh
      rw [hoff, hstop _ m ha]
      dsimp only
      rw [hm, List.take_append_of_le_length (Nat.le_of_lt hlt)]
      exact ⟨m, rfl, hmeter, rfl⟩
    · obtain ⟨l, rfl⟩ := Nat.exists_eq_add_of_le (Nat.not_lt.mp hlt)
      obtain ⟨ha, hm⟩ := hfirst.enough ((first μ).moments.length + l : Nat) u (by omega) (by omega)
      obtain ⟨m, ha', hmeter, hm'⟩ := hrest.short l (u + UInt64.ofNat (first μ).moments.length)
        (by omega) (by omega)
      have hticks : (((first μ).moments.length + l : Nat) : Int) - (first μ).moments.length = l := by
        omega
      rw [Meter.spent, hticks] at ha
      rw [hoff, hnext _ _ ha]
      refine ⟨m, ha', ?_, ?_⟩
      · rw [hmeter, UInt64.ofNat_add, UInt64.add_assoc]
      · dsimp only
        rw [List.map_append, hm, hm', List.take_length_add_append]

/-- A computation that ends with the trap of another one. -/
theorem abort {kind : TrapKind} (h : Priced μ first (.trap kind) n) (hk : kind ≠ .none)
    (hrun : ∀ ν kind m, kind ≠ .none → (first ν).answer = some (.trap kind, m) →
      run ν = first ν) : Priced μ run (.trap kind) n := by
  have hoff := hrun μ kind n hk h.answer
  refine ⟨by rw [hoff]; exact h.answer, h.meter, fun t u ht hhigh => ?_, fun t u ht hhigh => ?_⟩
  · rw [hoff] at ht ⊢
    have henough := h.enough t u ht hhigh
    rwa [hrun _ kind _ hk henough.1]
  · rw [hoff] at ht ⊢
    obtain ⟨m, ha, hshort⟩ := h.short t u ht hhigh
    rw [hrun _ .outOfTicks m nofun ha]
    exact ⟨m, ha, hshort⟩

/-- Leaving a call costs nothing. -/
theorem leave (h : Priced μ first result n)
    (hrun : ∀ ν, run ν = ⟨(first ν).answer.map fun e => (e.1, e.2.leave), (first ν).moments⟩) :
    Priced μ run result n.leave := by
  have hoff := hrun μ
  refine ⟨?_, h.meter, fun t u ht hhigh => ?_, fun t u ht hhigh => ?_⟩
  · rw [hoff, h.answer]
    rfl
  · rw [hoff] at ht ⊢
    obtain ⟨ha, hm⟩ := h.enough t u ht hhigh
    rw [hrun, ha]
    exact ⟨rfl, hm⟩
  · rw [hoff] at ht ⊢
    obtain ⟨m, ha, hmeter, hm⟩ := h.short t u ht hhigh
    rw [hrun, ha]
    exact ⟨m.leave, rfl, hmeter, hm⟩

end Priced

/-- The instructions of a stage. -/
def Stage.instructions (env : Environment) (fuel : Nat) : Stage → List Moment
  | .instruction x => if x.dispatched then [x] else []
  | .call c => c.instructions env fuel

theorem Call.instructions_succ (env : Environment) (fuel : Nat) (c : Call) :
    c.instructions env (fuel + 1) =
      (c.stages env fuel).flatMap (Stage.instructions env fuel) := by
  rw [Call.instructions]
  refine congrArg (List.flatMap · _) (funext fun stage => ?_)
  cases stage <;> rfl

namespace Call

variable (env : Environment)

def withMeter (c : Call) (μ : Meter) : Call := { c with machine := c.machine.withMeter μ }

/-- The call does not run a host function that knows of the meter. -/
def SparesMeter (c : Call) : Prop := ∀ program, c.plan env = .host program → program.IgnoresMeter

/-- The run of a call under a meter. -/
def course (fuel : Nat) (c : Call) (ν : Meter) : Course :=
  ⟨(c.withMeter ν).answer env fuel, (c.withMeter ν).instructions env fuel⟩

theorem plan_withMeter (c : Call) (ν : Meter) : (c.withMeter ν).plan env = c.plan env := rfl

end Call

/-- The run of a frame under a meter. -/
def frameCourse (env : Environment) (fuel : Nat) (r : Running) (turns : Nat) (s : FrameState)
    (m : Machine) (ν : Meter) : Course :=
  ⟨runFrame env (execute env fuel) r turns s (m.withMeter ν),
    (frameStages env.toObservers (execute env fuel) r turns s (m.withMeter ν)).flatMap
      (Stage.instructions env fuel)⟩

/-- What a frame does after a turn that was paid for. -/
def afterTurn (env : Environment) (fuel : Nat) (r : Running) (turns : Nat) (next : Turn)
    (ν : Meter) : Course :=
  match next with
  | .next s m => frameCourse env fuel r turns s m ν
  | .done result m => ⟨some (result, m.withMeter ν), []⟩
  | .wait target type s m =>
    let called := Call.course env fuel ⟨target, s.frame.topmost type.inputs.length, m⟩ ν
    match called.answer with
    | none => called
    | some (result, m') =>
      match aborts result with
      | some kind => ⟨some (.trap kind, m'), called.moments⟩
      | none =>
        let rest := frameCourse env fuel r turns (s.resume type result) m' m'.meter
        ⟨rest.answer, called.moments ++ rest.moments⟩

section
variable {env : Environment} {μ : Meter} (fuel : Nat) (r : Running) (turns : Nat)

/-- A frame that can pay for its instruction runs it and goes on. -/
theorem frameCourse_paid (s : FrameState) (m : Machine) {ν ν' : Meter}
    (hcharge : (m.context.withMeter ν).charge = (true, m.context.withMeter ν')) :
    frameCourse env fuel r (turns + 1) s m ν =
      ⟨(afterTurn env fuel r turns (paidTurn env.toObservers r s m) ν').answer,
        ⟨r, s, m.withMeter ν⟩ ::
          (afterTurn env fuel r turns (paidTurn env.toObservers r s m) ν').moments⟩ := by
  have hdispatched : (Stage.instruction ⟨r, s, m.withMeter ν⟩).instructions env fuel =
      [⟨r, s, m.withMeter ν⟩] := if_pos (congrArg Prod.fst hcharge)
  unfold frameCourse
  rw [runFrame_succ, frameStages, turn_withMeter _ _ _ _ hcharge, List.flatMap_cons, hdispatched]
  cases paidTurn env.toObservers r s m with
  | next s' m' => rfl
  | done result m' => rfl
  | wait target type s' m' =>
    dsimp only [Turn.withMeter, afterTurn, Call.course, Call.answer, Call.withMeter]
    cases execute env fuel target (s'.frame.topmost type.inputs.length) (m'.withMeter ν') with
    | none =>
      rw [List.flatMap_singleton]
      rfl
    | some answer =>
      obtain ⟨result, m''⟩ := answer
      dsimp only [Option.bind_some]
      cases aborts result with
      | some kind =>
        rw [List.flatMap_singleton]
        rfl
      | none =>
        rw [List.flatMap_cons]
        rfl

/-- A frame that cannot pay for its instruction ends. -/
theorem frameCourse_unpaid (s : FrameState) (m : Machine) {t : Int} (u : UInt64)
    (hlow : -2 ^ 63 < t) (hnonpos : t ≤ 0) :
    frameCourse env fuel r (turns + 1) s m (.holding t u) =
      ⟨some (.trap .outOfTicks, m.withMeter (.holding (t - 1) u)), []⟩ := by
  have hcharge := m.context.charge_unpaid u hlow hnonpos
  have hdispatched : (Stage.instruction ⟨r, s, m.withMeter (.holding t u)⟩).instructions env fuel =
      [] := by
    have hunpaid : ¬ (m.context.withMeter (.holding t u)).charge.1 = true := by
      rw [hcharge]
      exact nofun
    simp only [Stage.instructions]
    exact if_neg hunpaid
  unfold frameCourse
  rw [runFrame_succ, frameStages, turn_unpaid _ _ _ _ u hlow hnonpos, List.flatMap_cons,
    hdispatched]
  rfl

variable {fuel r turns} {target : FunctionRef} {type : FuncType} {s : FrameState} {m n : Machine}
  {ν ν' : Meter} {result : ExecutionResult} {kind : TrapKind}

theorem afterTurn_abort (hk : kind ≠ .none)
    (h : (Call.course env fuel ⟨target, s.frame.topmost type.inputs.length, m⟩ ν).answer =
      some (.trap kind, n)) :
    afterTurn env fuel r turns (.wait target type s m) ν =
      Call.course env fuel ⟨target, s.frame.topmost type.inputs.length, m⟩ ν := by
  unfold afterTurn
  dsimp only
  rw [h]
  dsimp only
  rw [aborts_eq_some.mpr ⟨rfl, hk⟩]
  dsimp only
  rw [← h]

theorem afterTurn_resume (hresult : aborts result = none)
    (h : (Call.course env fuel ⟨target, s.frame.topmost type.inputs.length, m⟩ ν).answer =
      some (result, n.withMeter ν')) :
    afterTurn env fuel r turns (.wait target type s m) ν =
      ⟨(frameCourse env fuel r turns (s.resume type result) n ν').answer,
        (Call.course env fuel ⟨target, s.frame.topmost type.inputs.length, m⟩ ν).moments ++
          (frameCourse env fuel r turns (s.resume type result) n ν').moments⟩ := by
  unfold afterTurn
  dsimp only
  rw [h]
  dsimp only
  rw [hresult]
  rfl

/-- A frame is priced if its calls are. -/
theorem frame_priced (hμ : μ.metering = false) :
    ∀ (s : FrameState) (m : Machine) {result : ExecutionResult} {n : Machine},
      runFrame env (execute env fuel) r turns s (m.withMeter μ) = some (result, n) →
      (∀ c, .call c ∈ frameStages env.toObservers (execute env fuel) r turns s (m.withMeter μ) →
        c.machine.meter = μ → ∀ result n, c.answer env fuel = some (result, n) →
          Priced μ (c.course env fuel) result n) →
      Priced μ (frameCourse env fuel r turns s m) result n := by
  induction turns with
  | zero => exact fun _ _ _ _ h => by cases h
  | succ turns ih =>
    intro s m result n ha hcalls
    have hoff := m.context.charge_off hμ
    refine .charge ⟨r, s, m⟩ (frameCourse_paid fuel r turns s m hoff)
      (fun t u hpos hhigh => frameCourse_paid fuel r turns s m (m.context.charge_paid u hpos hhigh))
      (fun u => frameCourse_unpaid fuel r turns s m u (by omega) (Int.le_refl 0)) ?_
    rw [runFrame_succ, turn_withMeter _ _ _ _ hoff] at ha
    rw [frameStages, turn_withMeter _ _ _ _ hoff] at hcalls
    cases hturn : paidTurn env.toObservers r s m with
    | next s' m' =>
      rw [hturn] at ha hcalls
      exact ih s' m' ha fun c hc => hcalls c (.tail _ hc)
    | done result' m' =>
      rw [hturn] at ha
      obtain ⟨rfl, rfl⟩ := Prod.mk.inj (Option.some.inj ha)
      exact .free rfl fun _ => rfl
    | wait target type s' m' =>
      rw [hturn] at ha hcalls
      dsimp only [Turn.withMeter] at ha hcalls
      have hcall := hcalls _ (.tail _ (.head _)) rfl
      cases hanswer : execute env fuel target (s'.frame.topmost type.inputs.length)
          (m'.withMeter μ) with
      | none =>
        rw [hanswer] at ha
        cases ha
      | some answer =>
        obtain ⟨result', m''⟩ := answer
        have hpriced : Priced μ (Call.course env fuel
            ⟨target, s'.frame.topmost type.inputs.length, m'⟩) result' m'' :=
          hcall result' m'' hanswer
        rw [hanswer] at ha hcalls
        dsimp only [Option.bind_some] at ha hcalls
        -- a call that runs out of ticks aborts the frame, so only its full price is gone on with
        cases hresult : aborts result' with
        | some kind =>
          rw [hresult] at ha
          obtain ⟨rfl, rfl⟩ := Prod.mk.inj (Option.some.inj ha)
          obtain ⟨rfl, hk⟩ := aborts_eq_some.mp hresult
          exact hpriced.abort hk fun ν kind n hk hn => afterTurn_abort hk hn
        | none =>
          rw [hresult] at ha hcalls
          have hm'' : m''.withMeter μ = m'' := by rw [← hpriced.meter]; rfl
          have hrest := ih (s'.resume type result') m'' (by rwa [hm'']) fun c hc =>
            hcalls c (.tail _ (.tail _ (by rwa [hm''] at hc)))
          refine hpriced.bind hrest (fun ν ν' hν => afterTurn_resume hresult hν) fun ν n hν => ?_
          rw [afterTurn_abort (show TrapKind.outOfTicks ≠ .none by decide) hν, ← hν]

end

namespace Call

variable {env : Environment} {μ : Meter}

/-- A call under a meter does what its plan says, under the same meter. -/
theorem course_succ (fuel : Nat) (c : Call) (ν : Meter) :
    c.course env (fuel + 1) ν =
      match c.plan env with
      | .refuse kind => ⟨some (.trap kind, c.machine.withMeter ν), []⟩
      | .link target =>
        ⟨((c.next target).course env fuel ν).answer.map fun e => (e.1, e.2.leave),
          ((c.next target).course env fuel ν).moments⟩
      | .host program =>
        ⟨(callHost (execute env fuel) program (c.machine.enter.withMeter ν)).map fun e =>
            (e.1, e.2.leave),
          (hostStages (execute env fuel) program (c.machine.enter.withMeter ν)).flatMap
            (Stage.instructions env fuel)⟩
      | .frame r s =>
        ⟨(frameCourse env fuel r fuel s c.machine.enter ν).answer.map fun e => (e.1, e.2.leave),
          (frameCourse env fuel r fuel s c.machine.enter ν).moments⟩ := by
  unfold course
  rw [answer_succ, instructions_succ, stages, plan_withMeter]
  cases c.plan env with
  | refuse kind => rfl
  | link target =>
    dsimp only
    rw [List.flatMap_singleton]
    rfl
  | host program => rfl
  | frame r s => rfl

/-- A call is priced if its own calls are. -/
theorem priced_succ (hμ : μ.metering = false) {fuel : Nat} {c : Call} {result : ExecutionResult}
    {n : Machine} (hc : c.machine.meter = μ) (hhost : c.SparesMeter env)
    (ha : c.answer env (fuel + 1) = some (result, n))
    (hcalls : ∀ c', .call c' ∈ c.stages env fuel → c'.machine.meter = μ → ∀ result n,
      c'.answer env fuel = some (result, n) → Priced μ (c'.course env fuel) result n) :
    Priced μ (c.course env (fuel + 1)) result n := by
  rw [answer_succ] at ha
  unfold stages at hcalls
  have hcourse := @course_succ env fuel c
  cases hp : c.plan env with
  | refuse kind =>
    rw [hp] at ha
    simp only [hp] at hcourse
    obtain ⟨rfl, rfl⟩ := Prod.mk.inj (Option.some.inj ha)
    exact .free hc hcourse
  | link target =>
    rw [hp] at ha hcalls
    simp only [hp] at hcourse
    obtain ⟨⟨result', n'⟩, ha', he⟩ := Option.map_eq_some_iff.mp ha
    obtain ⟨rfl, rfl⟩ := Prod.mk.inj he
    exact (hcalls _ (.head _) hc _ _ ha').leave hcourse
  | host program =>
    rw [hp] at ha
    simp only [hp] at hcourse
    have hignores := hhost program hp
    obtain ⟨⟨result', n'⟩, ha', he⟩ := Option.map_eq_some_iff.mp ha
    obtain ⟨rfl, rfl⟩ := Prod.mk.inj he
    have hn' : n'.leave.meter = μ := (callHost_meter hignores ha').trans hc
    refine .free hn' fun ν => ?_
    rw [hcourse, callHost_withMeter hignores, hostStages_eq_nil hignores, ha']
    rfl
  | frame r s =>
    rw [hp] at ha hcalls
    simp only [hp] at hcourse
    obtain ⟨⟨result', n'⟩, ha', he⟩ := Option.map_eq_some_iff.mp ha
    obtain ⟨rfl, rfl⟩ := Prod.mk.inj he
    have hm : c.machine.enter.withMeter μ = c.machine.enter := by rw [← hc]; rfl
    rw [← hm] at ha' hcalls
    exact (frame_priced hμ s c.machine.enter ha' hcalls).leave hcourse

/-- Calls that spare the meter are priced. -/
theorem priced (hμ : μ.metering = false) (fuel : Nat) : ∀ {c : Call} {result : ExecutionResult}
    {n : Machine}, c.machine.meter = μ → (∀ c' ∈ c.calls env fuel, c'.SparesMeter env) →
      c.answer env fuel = some (result, n) → Priced μ (c.course env fuel) result n := by
  induction fuel with
  | zero => exact fun _ _ h => by cases h
  | succ fuel ih =>
    intro c result n hc hhost ha
    refine priced_succ hμ hc (hhost c (mem_calls_self env _ c)) ha fun c' hc' hmeter result' n' => ?_
    exact ih hmeter fun c'' hc'' => hhost c'' (mem_calls_of_stage env hc' hc'')

end Call

end WasmEngine
