import WasmEngine.Embedding
import WasmEngine.Proofs.Execution.Threshold

/-!
# Metered runs

What a metered run takes from its context: a tick for each instruction, and one more if it stops for
want of a tick. A context that is reused hands on what is left, so all its runs together run no more
instructions than it had ticks, and once it has run out every later run stops at once.
-/
namespace WasmEngine
set_option autoImplicit false

/-- How a run that started with `t` ticks and `u` steps left its meter after `k` instructions.
`raised` says that a host function gave the lack of ticks as its own reason. -/
inductive Outlay (raised : Prop) (t : Int) (u : UInt64) (k : Nat) (result : ExecutionResult)
    (μ : Meter) : Prop
  | paid (hk : (k : Int) ≤ max t 0) (hμ : μ = .spent t u k)
      (hr : result = .trap .outOfTicks → raised)
  | exhausted (hk : (k : Int) = max t 0) (hμ : μ = .holding (t - k - 1) (u + UInt64.ofNat k))
      (hr : result = .trap .outOfTicks)

/-- A run takes no more from its meter than it may: it runs no more instructions than there are
ticks, and if it ends, it leaves the meter accordingly. -/
structure Metered (raised : Prop) (t : Int) (u : UInt64) (k : Nat)
    (o : Option (ExecutionResult × Machine)) : Prop where
  bound : (k : Int) ≤ max t 0
  outlay : ∀ result n, o = some (result, n) → Outlay raised t u k result n.meter

namespace Metered

variable {raised raised' : Prop} {t : Int} {u : UInt64} {k l : Nat}
  {o : Option (ExecutionResult × Machine)} {result : ExecutionResult} {n : Machine}

theorem unanswered (hk : (k : Int) ≤ max t 0) : Metered raised t u k none :=
  ⟨hk, fun _ _ h => by cases h⟩

theorem paid (hk : (k : Int) ≤ max t 0) (hn : n.meter = .spent t u k)
    (hr : result = .trap .outOfTicks → raised) : Metered raised t u k (some (result, n)) := by
  refine ⟨hk, ?_⟩
  rintro _ _ ⟨⟩
  exact .paid hk hn hr

theorem unpaid (hnonpos : t ≤ 0) (hn : n.meter = .holding (t - 1) u) :
    Metered raised t u 0 (some (.trap .outOfTicks, n)) := by
  refine ⟨by omega, ?_⟩
  rintro _ _ ⟨⟩
  refine .exhausted (by omega) (hn.trans ?_) rfl
  rw [Int.natCast_zero, Int.sub_zero]
  exact congrArg (Meter.holding (t - 1)) (UInt64.add_zero u).symm

theorem mono (h : Metered raised t u k o) (hr : raised → raised') : Metered raised' t u k o := by
  refine ⟨h.bound, fun result n ho => ?_⟩
  cases h.outlay result n ho with
  | paid hk hμ hraised => exact .paid hk hμ fun he => hr (hraised he)
  | exhausted hk hμ he => exact .exhausted hk hμ he

theorem leave (h : Metered raised t u k o) :
    Metered raised t u k (o.map fun e => (e.1, e.2.leave)) := by
  refine ⟨h.bound, fun result n ho => ?_⟩
  obtain ⟨⟨result', n'⟩, ho', he⟩ := Option.map_eq_some_iff.mp ho
  obtain ⟨rfl, rfl⟩ := Prod.mk.inj he
  exact h.outlay result' n' ho'

/-- What comes after `k` instructions that were paid for. -/
theorem after (hk : (k : Int) ≤ max t 0)
    (h : Metered raised (t - k) (u + UInt64.ofNat k) l o) : Metered raised t u (k + l) o := by
  have hbound := h.bound
  refine ⟨by omega, fun result n ho => ?_⟩
  cases h.outlay result n ho with
  | paid hl hμ hr => exact .paid (by omega) (hμ.trans (Meter.spent_add t u k l)) hr
  | exhausted hl hμ hr =>
    have hticks : t - k - l - 1 = t - (k + l : Nat) - 1 := by omega
    refine .exhausted (by omega) (hμ.trans ?_) hr
    rw [hticks, UInt64.add_assoc, ← UInt64.ofNat_add]

theorem pay (hpos : 0 < t) (h : Metered raised (t - 1) (u + 1) l o) :
    Metered raised t u (1 + l) o :=
  after (k := 1) (by omega) h

end Metered

/-- No instruction runs out of ticks: that happens before it. -/
theorem paidTurn_ne_outOfTicks (obs : Observers) (r : Running) (s : FrameState) (m n : Machine) :
    paidTurn obs r s m ≠ .done (.trap .outOfTicks) n := by
  unfold paidTurn
  dsimp only
  cases ho : step obs r.inst r.code (r.instruction s.pc) (s.pc + 1) s.frame
      (reportAt obs r s m).2 with
  | goto | call => exact nofun
  | leave frame m' =>
    dsimp only [Outcome.toTurn, Running.result]
    split <;> exact nofun
  | trap kind m' =>
    intro h
    obtain ⟨hk, -⟩ := Turn.done.inj h
    have hresult := step_result obs r.inst r.code (s.pc + 1) s.frame (reportAt obs r s m).2
      (r.instruction s.pc)
    rw [ho, ExecutionResult.trap.inj hk] at hresult
    cases hresult with
    | trap hmem => exact absurd hmem (by decide)

/-- A turn of a metered frame: either a tick is left and pays for the instruction, which is then
run, or the frame ends for want of one. -/
theorem turn_metered (obs : Observers) (r : Running) (s : FrameState) {m : Machine} {t : Int}
    {u : UInt64} (hm : m.meter = .holding t u) (hlow : -2 ^ 63 < t) (hhigh : t < 2 ^ 63) :
    (0 < t ∧ Moment.dispatched ⟨r, s, m⟩ = true ∧
      (turn obs r s m).machine.meter = .holding (t - 1) (u + 1) ∧
      ∀ n, turn obs r s m ≠ .done (.trap .outOfTicks) n) ∨
    (t ≤ 0 ∧ Moment.dispatched ⟨r, s, m⟩ = false ∧
      turn obs r s m = .done (.trap .outOfTicks) (m.withMeter (.holding (t - 1) u))) := by
  have hself : m.withMeter (.holding t u) = m := by
    rw [← hm]
    rfl
  have hcontext : m.context = m.context.withMeter (.holding t u) :=
    congrArg Machine.context hself.symm
  by_cases hpos : 0 < t
  · have hcharge := m.context.charge_paid u hpos hhigh
    have hturn : turn obs r s m = (paidTurn obs r s m).withMeter (.holding (t - 1) (u + 1)) := by
      rw [← turn_withMeter obs r s m hcharge, hself]
    refine .inl ⟨hpos, ?_, ?_, fun n h => ?_⟩
    · unfold Moment.dispatched
      dsimp only
      rw [hcontext, hcharge]
    · rw [hturn]
      cases paidTurn obs r s m <;> rfl
    · rw [hturn] at h
      cases hpaid : paidTurn obs r s m with
      | next | wait =>
        rw [hpaid] at h
        cases h
      | done result m' =>
        rw [hpaid] at h
        obtain ⟨rfl, -⟩ := Turn.done.inj h
        exact paidTurn_ne_outOfTicks obs r s m m' hpaid
  · have hnonpos : t ≤ 0 := by omega
    have hcharge := m.context.charge_unpaid u hlow hnonpos
    refine .inr ⟨hnonpos, ?_, ?_⟩
    · unfold Moment.dispatched
      dsimp only
      rw [hcontext, hcharge]
    · rw [← turn_unpaid obs r s m u hlow hnonpos, hself]

/-- A frame that goes on has paid for its instruction. -/
theorem turn_goes_on {obs : Observers} {r : Running} {s : FrameState} {m : Machine} {t : Int}
    {u : UInt64} (hm : m.meter = .holding t u) (hlow : -2 ^ 63 < t) (hhigh : t < 2 ^ 63)
    (hne : ∀ result n, turn obs r s m ≠ .done result n) :
    0 < t ∧ Moment.dispatched ⟨r, s, m⟩ = true ∧
      (turn obs r s m).machine.meter = .holding (t - 1) (u + 1) := by
  obtain ⟨hpos, hx, hm', -⟩ | ⟨-, -, hturn⟩ := turn_metered obs r s hm hlow hhigh
  · exact ⟨hpos, hx, hm'⟩
  · exact absurd hturn (hne _ _)

namespace Call

variable (env : Environment)

/-- A host function in the run of the call gave the lack of ticks as its reason. -/
def HostRanOut (fuel : Nat) (c : Call) : Prop :=
  ∃ c' ∈ c.calls env fuel, c'.RunsHost env ∧
    ∃ fuel' n, c'.answer env fuel' = some (.trap .outOfTicks, n)

/-- The run of the call is metered as it should be, from wherever its meter starts. -/
def Metered (fuel : Nat) (c : Call) : Prop :=
  ∀ (t : Int) (u : UInt64), c.machine.meter = .holding t u → -2 ^ 63 < t → t < 2 ^ 63 →
    WasmEngine.Metered (c.HostRanOut env fuel) t u (c.instructions env fuel).length
      (c.answer env fuel)

end Call

section
variable {env : Environment} {fuel : Nat} {r : Running} {s : FrameState} {m : Machine}
  {l : List Stage} {o : Option (ExecutionResult × Machine)}

/-- A host function in the run of one of the calls gave the lack of ticks as its reason. -/
def HostRanOutIn (env : Environment) (fuel : Nat) (l : List Stage) : Prop :=
  ∃ c, .call c ∈ l ∧ c.HostRanOut env fuel

/-- The number of instructions of a list of stages. -/
def costOf (env : Environment) (fuel : Nat) (l : List Stage) : Nat :=
  (l.flatMap (Stage.instructions env fuel)).length

theorem costOf_instruction {x : Moment} (hx : x.dispatched = true) :
    costOf env fuel (.instruction x :: l) = 1 + costOf env fuel l := by
  unfold costOf
  rw [List.flatMap_cons, List.length_append]
  have h : (Stage.instruction x).instructions env fuel = [x] := if_pos hx
  rw [h, List.length_singleton]

theorem costOf_call (c : Call) :
    costOf env fuel (.call c :: l) = (c.instructions env fuel).length + costOf env fuel l := by
  unfold costOf
  rw [List.flatMap_cons, List.length_append]
  rfl

theorem costOf_nil : costOf env fuel [] = 0 := rfl

theorem costOf_unpaid {x : Moment} (hx : x.dispatched = false) :
    costOf env fuel [.instruction x] = 0 := by
  unfold costOf
  rw [List.flatMap_singleton]
  have h : (Stage.instruction x).instructions env fuel = [] := if_neg (by rw [hx]; exact nofun)
  rw [h, List.length_nil]

/-- A frame is metered if its calls are. -/
theorem FrameRun.metered (h : FrameRun env.toObservers (execute env fuel) r s m l o) {t : Int}
    {u : UInt64} (hm : m.meter = .holding t u) (hlow : -2 ^ 63 < t) (hhigh : t < 2 ^ 63)
    (hcalls : ∀ c, .call c ∈ l → c.Metered env fuel) :
    Metered (HostRanOutIn env fuel l) t u (costOf env fuel l) o := by
  induction h generalizing t u with
  | cut =>
    rw [costOf_nil]
    exact .unanswered (by omega)
  | @next s s' m m' l o hturn hrest ih =>
    obtain ⟨hpos, hx, hm'⟩ := turn_goes_on hm hlow hhigh (by rw [hturn]; exact nofun)
    rw [hturn] at hm'
    have hnext := ih hm' (by omega) (by omega) fun c hc => hcalls c (.tail _ hc)
    rw [costOf_instruction hx]
    exact (hnext.pay hpos).mono fun ⟨c, hc, hraised⟩ => ⟨c, .tail _ hc, hraised⟩
  | @done s m m' result hturn =>
    obtain ⟨hpos, hx, hm', hne⟩ | ⟨hnonpos, hx, hturn'⟩ :=
      turn_metered env.toObservers r s hm hlow hhigh
    · rw [hturn] at hm'
      have hr : result ≠ .trap .outOfTicks := by
        rintro rfl
        exact hne m' hturn
      rw [costOf_instruction hx, costOf_nil]
      refine .pay hpos (.paid (by omega) (hm'.trans ?_) fun he => absurd he hr)
      exact (Meter.spent_zero _ _).symm
    · obtain ⟨rfl, rfl⟩ := Turn.done.inj (hturn.symm.trans hturn')
      rw [costOf_unpaid hx]
      exact .unpaid hnonpos rfl
  | @unanswered s s' m m' target type hturn hcall =>
    obtain ⟨hpos, hx, hm'⟩ := turn_goes_on hm hlow hhigh (by rw [hturn]; exact nofun)
    rw [hturn] at hm'
    have hcalled := hcalls _ (.tail _ (.head _)) _ _ hm' (by omega) (by omega)
    rw [costOf_instruction hx, costOf_call, costOf_nil]
    exact Metered.pay hpos (.unanswered hcalled.bound)
  | @aborted s s' m m' m'' target type kind hturn hcall hkind =>
    obtain ⟨hpos, hx, hm'⟩ := turn_goes_on hm hlow hhigh (by rw [hturn]; exact nofun)
    rw [hturn] at hm'
    have hcalled := hcalls _ (.tail _ (.head _)) _ _ hm' (by omega) (by omega)
    rw [Call.answer, hcall] at hcalled
    rw [costOf_instruction hx, costOf_call, costOf_nil]
    exact (hcalled.pay hpos).mono fun hraised => ⟨_, .tail _ (.head _), hraised⟩
  | @resumed s s' m m' m'' target type result l o hturn hcall hresult hrest ih =>
    obtain ⟨hpos, hx, hm'⟩ := turn_goes_on hm hlow hhigh (by rw [hturn]; exact nofun)
    rw [hturn] at hm'
    have hcalled := hcalls _ (.tail _ (.head _)) _ _ hm' (by omega) (by omega)
    rw [Call.answer, hcall] at hcalled
    rw [costOf_instruction hx, costOf_call]
    cases hcalled.outlay _ _ rfl with
    | exhausted _ _ hr =>
      -- a frame does not go on behind a call that ran out of ticks
      subst hr
      cases hresult
    | paid hk hmeter _ =>
      have hlast := ih hmeter (by omega) (by omega) fun c hc => hcalls c (.tail _ (.tail _ hc))
      refine ((hlast.after hk).pay hpos).mono fun ⟨c, hc, hraised⟩ => ?_
      exact ⟨c, .tail _ (.tail _ hc), hraised⟩

end

namespace Call

variable {env : Environment} {fuel : Nat} {c : Call}

/-- A call is metered if its own calls are. -/
theorem metered_succ (hhost : c.SparesMeter env)
    (hcalls : ∀ c', .call c' ∈ c.stages env fuel → c'.Metered env fuel) :
    c.Metered env (fuel + 1) := by
  intro t u hm hlow hhigh
  have hbeneath : HostRanOutIn env fuel (c.stages env fuel) → c.HostRanOut env (fuel + 1) := by
    rintro ⟨c', hc', c'', hc'', hraised⟩
    exact ⟨c'', mem_calls_of_stage env hc' hc'', hraised⟩
  have hunchanged := (Meter.spent_zero t u).symm
  rw [instructions_succ]
  change WasmEngine.Metered _ t u (costOf env fuel (c.stages env fuel)) _
  cases hp : c.plan env with
  | refuse kind =>
    rw [answer_succ, stages, hp]
    refine .paid (by rw [costOf_nil]; omega) (hm.trans hunchanged) fun he => ?_
    have hplan := c.planned env
    rw [hp, ExecutionResult.trap.inj he] at hplan
    cases hplan with
    | refuse hk => exact absurd hk (by decide)
  | link target =>
    have hstages : c.stages env fuel = [.call (c.next target)] := by rw [stages, hp]
    rw [hstages] at hcalls hbeneath ⊢
    have hnext := hcalls (c.next target) (.head _) t u hm hlow hhigh
    rw [answer_succ, hp, costOf_call, costOf_nil]
    exact hnext.leave.mono fun hraised => hbeneath ⟨_, .head _, hraised⟩
  | host program =>
    have hignores := hhost program hp
    have hstages : c.stages env fuel = [] := by
      rw [stages, hp]
      exact hostStages_eq_nil hignores _
    rw [hstages, costOf_nil]
    cases ha : c.answer env (fuel + 1) with
    | none => exact .unanswered (by omega)
    | some answer =>
      obtain ⟨result, n⟩ := answer
      have hn : n.meter = c.machine.meter := by
        rw [answer_succ, hp] at ha
        obtain ⟨⟨result', n'⟩, ha', he⟩ := Option.map_eq_some_iff.mp ha
        obtain ⟨rfl, rfl⟩ := Prod.mk.inj he
        have hkept := callHost_meter hignores ha'
        exact hkept
      refine .paid (by omega) (hn.trans (hm.trans hunchanged)) ?_
      rintro rfl
      exact ⟨c, mem_calls_self env _ c, ⟨program, hp⟩, fuel + 1, n, ha⟩
  | frame r s =>
    have hstages : c.stages env fuel =
        frameStages env.toObservers (execute env fuel) r fuel s c.machine.enter := by
      rw [stages, hp]
    rw [hstages] at hcalls hbeneath ⊢
    rw [answer_succ, hp]
    have hframe := (frameRun env (execute env fuel) r fuel s c.machine.enter).metered hm hlow hhigh
      hcalls
    exact hframe.leave.mono hbeneath

/-- Runs whose host functions ignore the meter are metered as they should be. -/
theorem metered (fuel : Nat) : ∀ {c : Call}, (∀ c' ∈ c.calls env fuel, c'.SparesMeter env) →
    c.Metered env fuel := by
  induction fuel with
  | zero => exact fun _ t u _ _ _ => .unanswered (by rw [instructions, List.length_nil]; omega)
  | succ fuel ih =>
    intro c hhost
    refine metered_succ (hhost c (mem_calls_self env _ c)) fun c' hc' => ?_
    exact ih fun c'' hc'' => hhost c'' (mem_calls_of_stage env hc' hc'')

/-- A function of a module that is called when no tick is left stops before its first
instruction. -/
theorem answer_of_spent {r : Running} {s : FrameState} {t : Int} {u : UInt64}
    (hp : c.plan env = .frame r s) (hm : c.machine.meter = .holding t u) (hlow : -2 ^ 63 < t)
    (hnonpos : t ≤ 0) (fuel : Nat) :
    c.answer env (fuel + 2) = some (.trap .outOfTicks, c.machine.withMeter (.holding (t - 1) u)) ∧
      c.instructions env (fuel + 2) = [] := by
  have hself : c.withMeter (.holding t u) = c := by
    rw [← hm]
    rfl
  have hcourse := @course_succ env (fuel + 1) c (.holding t u)
  rw [hp] at hcourse
  dsimp only at hcourse
  rw [frameCourse_unpaid _ _ _ _ _ u hlow hnonpos] at hcourse
  have hanswer := congrArg Course.answer hcourse
  have hmoments := congrArg Course.moments hcourse
  rw [course, hself] at hanswer hmoments
  exact ⟨hanswer, hmoments⟩

end Call

/-- A run that has ended. -/
structure Run where
  fuel : Nat
  call : Call
  result : ExecutionResult
  final : Machine

def Run.instructions (env : Environment) (x : Run) : List Moment :=
  x.call.instructions env x.fuel

/-- Runs one after another in a context that is reused: each starts with the meter that the one
before has left. Everything else may have changed in between. -/
inductive Reuse (env : Environment) : Meter → List Run → Meter → Prop
  | nil (μ : Meter) : Reuse env μ [] μ
  | cons {x : Run} {rest : List Run} {μ ν : Meter} (hstart : x.call.machine.meter = μ)
      (hend : x.call.answer env x.fuel = some (x.result, x.final))
      (hspares : ∀ c ∈ x.call.calls env x.fuel, c.SparesMeter env)
      (hrest : Reuse env x.final.meter rest ν) : Reuse env μ (x :: rest) ν

/-- All runs in a context together run no more instructions than it has ticks, and each takes at
most one tick more than it has instructions. -/
theorem Reuse.total {env : Environment} {μ ν : Meter} {runs : List Run} (h : Reuse env μ runs ν) :
    ∀ {t : Int} {u : UInt64}, μ = .holding t u → t < 2 ^ 63 →
      (runs.length : Int) ≤ 2 ^ 63 + min t 0 →
      ((runs.flatMap (·.instructions env)).length : Int) ≤ max t 0 ∧
        ∃ t' u', ν = .holding t' u' ∧ min t 0 - runs.length ≤ t' ∧ t' ≤ t := by
  induction h with
  | nil μ =>
    intro t u hμ _ _
    refine ⟨?_, t, u, hμ, ?_, Int.le_refl t⟩
    · rw [List.flatMap_nil, List.length_nil]
      omega
    · rw [List.length_nil]
      omega
  | @cons x rest μ ν hstart hend hspares hrest ih =>
    intro t u hμ hhigh hlength
    rw [List.length_cons] at hlength ⊢
    rw [List.flatMap_cons, List.length_append]
    have hmetered := Call.metered x.fuel hspares t u (hstart.trans hμ) (by omega) hhigh
    have hbound := hmetered.bound
    rw [← Run.instructions] at hbound
    cases hmetered.outlay _ _ hend with
    | paid hk hmeter _ =>
      rw [← Run.instructions] at hk hmeter
      obtain ⟨hsum, t', u', hν, hlow, hle⟩ := ih hmeter (by omega) (by omega)
      exact ⟨by omega, t', u', hν, by omega, by omega⟩
    | exhausted hk hmeter _ =>
      rw [← Run.instructions] at hk hmeter
      obtain ⟨hsum, t', u', hν, hlow, hle⟩ := ih hmeter (by omega) (by omega)
      exact ⟨by omega, t', u', hν, by omega, by omega⟩

/-- A run that ends without metering as `result` and `n` costs `k` ticks: with as many it ends the
same way, and with fewer for want of one. -/
structure Call.Costs (env : Environment) (fuel : Nat) (c : Call) (result : ExecutionResult)
    (n : Machine) (k : Nat) : Prop where
  count : k = (c.instructions env fuel).length
  enough : ∀ (t : Int) (u : UInt64), k ≤ t → t < 2 ^ 63 →
    (c.withMeter (.holding t u)).answer env fuel =
      some (result, n.withMeter (.holding (t - k) (u + UInt64.ofNat k)))
  short : ∀ (t : Nat) (u : UInt64), t < k → t < 2 ^ 63 →
    ∃ n', (c.withMeter (.holding t u)).answer env fuel = some (.trap .outOfTicks, n') ∧
      n'.meter = .holding (-1) (u + UInt64.ofNat t) ∧
      ((c.withMeter (.holding t u)).instructions env fuel).map (·.withMeter c.machine.meter) =
        (c.instructions env fuel).take t

/-- A run that ends as `result` with the meter `μ` has run `k` instructions with the `t` ticks that
it had. -/
structure Call.Takes (env : Environment) (fuel : Nat) (c : Call) (t : Int) (u : UInt64)
    (result : ExecutionResult) (μ : Meter) (k : Nat) : Prop where
  count : k = (c.instructions env fuel).length
  within : k ≤ t
  left : (μ = .holding (t - k) (u + UInt64.ofNat k) ∧
      (result = .trap .outOfTicks → c.HostRanOut env fuel)) ∨
    (k = t ∧ μ = .holding (-1) (u + UInt64.ofNat k) ∧ result = .trap .outOfTicks)

/-- What metering does to the runs in an environment. -/
structure MeteringExact (env : Environment) : Prop where
  costs : ∀ (fuel : Nat) (c : Call) (result : ExecutionResult) (n : Machine),
    c.machine.context.metering = false → (∀ c' ∈ c.calls env fuel, c'.SparesMeter env) →
    c.answer env fuel = some (result, n) → ∃ k : Nat, c.Costs env fuel result n k
  takes : ∀ (fuel : Nat) (c : Call) (t : Int) (u : UInt64) (result : ExecutionResult) (n : Machine),
    c.machine.meter = .holding t u → 0 ≤ t → t < 2 ^ 63 →
    (∀ c' ∈ c.calls env fuel, c'.SparesMeter env) → c.answer env fuel = some (result, n) →
    ∃ k : Nat, c.Takes env fuel t u result n.meter k
  reuse : ∀ (t : Int) (u : UInt64) (runs : List Run) (μ : Meter), Reuse env (.holding t u) runs μ →
    0 ≤ t → t < 2 ^ 63 → runs.length ≤ 2 ^ 63 → (runs.flatMap (·.instructions env)).length ≤ t
  spent : ∀ (fuel : Nat) (c : Call) (t : Int) (u : UInt64) (n : Machine),
    c.machine.meter = .holding t u → 0 ≤ t → t < 2 ^ 63 →
    (∀ c' ∈ c.calls env fuel, c'.SparesMeter env) →
    c.answer env fuel = some (.trap .outOfTicks, n) → ¬ c.HostRanOut env fuel →
    ∀ (runs : List Run) (μ : Meter), Reuse env n.meter runs μ → runs.length + 1 < 2 ^ 63 →
      ∀ (later : Call) (f : FunctionInstance) (code : Code)
        (instrumented : Option InstrumentedCode), later.machine.meter = μ →
        later.machine.context.depth < callStackLimit →
        later.machine.interruptRequested = false →
        later.machine.store.function? later.target = some f →
        f.body = .defined code instrumented → ∀ fuel',
          ∃ n', later.answer env (fuel' + 2) = some (.trap .outOfTicks, n') ∧
            n'.store = later.machine.store ∧ later.instructions env (fuel' + 2) = []

/-- Metering is a sharp threshold and otherwise unobservable, for runs whose host functions ignore
the meter. A run that ends without metering has a cost, the number of its instructions: with at
least as many ticks it ends the same way and has taken the cost; with fewer it ends for want of a
tick when it has run as many instructions as it had ticks, the same ones. Every metered run takes a
tick for each instruction, and one more if it ends for want of a tick. So runs in one context never
run more instructions than it had ticks, and once a run has ended for want of a tick, every later
run of a function of a module does so before its first instruction. -/
theorem metering_threshold (env : Environment) : MeteringExact env := by
  refine ⟨fun fuel c result n hoff hspares ha => ?_, fun fuel c t u result n hm hpos hhigh hspares
    ha => ?_, fun t u runs μ hreuse hpos hhigh hlength => ?_, ?_⟩
  · have hpriced := Call.priced hoff fuel rfl hspares ha
    exact ⟨_, rfl, fun t u ht hhigh => (hpriced.enough t u ht hhigh).1, hpriced.short⟩
  · have hmetered := Call.metered fuel hspares t u hm (by omega) hhigh
    have hbound := hmetered.bound
    refine ⟨_, rfl, by omega, ?_⟩
    cases hmetered.outlay _ _ ha with
    | paid _ hmeter hr => exact .inl ⟨hmeter, hr⟩
    | exhausted hk hmeter hr =>
      have hticks : t - (c.instructions env fuel).length - 1 = -1 := by omega
      rw [hticks] at hmeter
      exact .inr ⟨by omega, hmeter, hr⟩
  · obtain ⟨hsum, -⟩ := hreuse.total rfl hhigh (by omega)
    omega
  · intro fuel c t u n hm hpos hhigh hspares ha hhost runs μ hreuse hlength later f code
      instrumented hlater hdepth hflag hf hb fuel'
    have hmetered := Call.metered fuel hspares t u hm (by omega) hhigh
    cases hmetered.outlay _ _ ha with
    | paid _ _ hr => exact absurd (hr rfl) hhost
    | exhausted hk hmeter _ =>
      obtain ⟨-, t', u', rfl, hlow, hle⟩ := hreuse.total hmeter (by omega) (by omega)
      obtain ⟨r, s, hp⟩ := @Call.plan_defined env later f code instrumented hdepth hflag hf hb
      obtain ⟨hanswer, hinstructions⟩ :=
        Call.answer_of_spent hp hlater (by omega) (by omega) fuel'
      exact ⟨_, hanswer, rfl, hinstructions⟩

/-- A host function that sets a global does not look at the meter. -/
theorem HostFunction.setGlobal_ignoresMeter (index : Nat) (call : HostCall) :
    (HostFunction.setGlobal index call).IgnoresMeter := by
  refine ⟨fun m μ => ?_, trivial⟩
  dsimp only
  rw [Machine.withMeter_store]
  split <;> rfl

/-- A function that has the host set a global and goes on for two instructions. -/
def settingStore : Store where
  globals := #[⟨0, ⟨.i32, true⟩⟩]
  instances := #[
    { functions := #[⟨⟨[.i32], []⟩, "set", 0, .imported (.host 0 0)⟩,
        ⟨{}, "main", 1, .defined
          { instructions := #[.const .i32 5, .call 0, .nop, .end_], maxHeight := 1 } none⟩]
      globals := #[0] }]

theorem setting_metered :
    let env : Environment := { host := fun _ => HostFunction.setGlobal 0 }
    let main : Call := ⟨⟨0, 1⟩, [], { store := settingStore }⟩
    (∀ c' ∈ main.calls env 10, c'.SparesMeter env) ∧
      (∃ n, main.answer env 10 = some (.void, n) ∧
        n.store.globals.map (·.value) = #[5] ∧
        (main.withMeter (.holding 4 0)).answer env 10 =
          some (.void, n.withMeter (.holding 0 4))) ∧
      (∃ runs μ, Reuse env (.holding 4 0) runs μ ∧ runs.length = 2 ∧
        (runs.flatMap (·.instructions env)).length ≤ (4 : Int)) ∧
      ∃ n, (main.withMeter (.holding 3 0)).answer env 10 = some (.trap .outOfTicks, n) ∧
        n.meter = .holding (-1) 3 ∧ ¬ (main.withMeter (.holding 3 0)).HostRanOut env 10 ∧
        ∃ n', (main.withMeter n.meter).answer env 10 = some (.trap .outOfTicks, n') ∧
          n'.store = settingStore := by
  intro env main
  have hspares : ∀ c : Call, c.SparesMeter env := by
    intro c program hp
    have hplan := c.planned env
    rw [hp] at hplan
    cases hplan with
    | host => exact HostFunction.setGlobal_ignoresMeter 0 _
  have hhost : ¬ (main.withMeter (.holding 3 0)).HostRanOut env 10 := by
    rintro ⟨c, -, ⟨program, hp⟩, fuel, n, ha⟩
    have hplan := c.planned env
    rw [hp] at hplan
    cases hplan with
    | host =>
      cases fuel with
      | zero => cases ha
      | succ fuel =>
        rw [Call.answer_succ, hp] at ha
        cases ha
  have hanswer : (main.answer env 10).map (fun e => (e.1, e.2.store.globals.map (·.value))) =
      some (.void, #[5]) := by decide +kernel
  have hcost : (main.instructions env 10).length = 4 := by decide +kernel
  obtain ⟨⟨result, n⟩, ha, he⟩ := Option.map_eq_some_iff.mp hanswer
  obtain ⟨rfl, hglobals⟩ := Prod.mk.inj he
  have hmetering := metering_threshold env
  obtain ⟨k, hk, henough, hshort⟩ := hmetering.costs 10 main .void n rfl (fun c _ => hspares c) ha
  obtain rfl : k = 4 := hk.trans hcost
  have hfull := henough 4 0 (by omega) (by omega)
  obtain ⟨spent, hempty, -, -⟩ := hshort 0 4 (by omega) (by omega)
  have hreuse : Reuse env (.holding 4 0)
      [⟨10, main.withMeter (.holding 4 0), .void, n.withMeter (.holding 0 4)⟩,
        ⟨10, main.withMeter (.holding 0 4), .trap .outOfTicks, spent⟩] spent.meter :=
    .cons rfl hfull (fun c _ => hspares c) (.cons rfl hempty (fun c _ => hspares c) (.nil _))
  obtain ⟨n', ha', hmeter, -⟩ := hshort 3 0 (by omega) (by omega)
  refine ⟨fun c _ => hspares c, ⟨n, ha, hglobals, hfull⟩, ⟨_, _, hreuse, rfl,
    hmetering.reuse 4 0 _ _ hreuse (by omega) (by omega) (show 2 ≤ 2 ^ 63 by decide)⟩,
    n', ha', hmeter, hhost, ?_⟩
  obtain ⟨n'', ha'', hstore, -⟩ := hmetering.spent 10 (main.withMeter (.holding 3 0))
    3 0 n' rfl (by omega) (by omega) (fun c _ => hspares c) ha' hhost [] n'.meter (.nil _) (by decide)
    (main.withMeter n'.meter) _ _ _ rfl (show 0 < callStackLimit by decide) rfl rfl rfl 8
  exact ⟨n'', ha'', hstore⟩

/-- One function calls the host, another one does nothing. -/
def quittingStore : Store where
  instances := #[
    { functions := #[⟨{}, "quit", 0, .imported (.host 0 0)⟩,
        ⟨{}, "main", 1, .defined { instructions := #[.call 0, .end_] } none⟩,
        ⟨{}, "idle", 2, .defined { instructions := #[.nop, .end_] } none⟩] }]

/-- A host function that gives the lack of ticks as its reason leaves the ticks that there are, and
later runs in the context go on. -/
theorem quitting_keeps_ticks :
    let env : Environment := { host := fun _ => HostFunction.constant (.trap .outOfTicks) }
    let main : Call := ⟨⟨0, 1⟩, [], { store := quittingStore }⟩
    (∀ c' ∈ (main.withMeter (.holding 100 0)).calls env 10, c'.SparesMeter env) ∧
      ∃ n n', (main.withMeter (.holding 100 0)).answer env 10 = some (.trap .outOfTicks, n) ∧
        n.meter = .holding 99 1 ∧ n.context.depth = 0 ∧ n.interruptRequested = false ∧
        (Call.mk ⟨0, 2⟩ [] n).answer env 10 = some (.void, n') ∧ n'.meter = .holding 97 3 := by
  intro env main
  have hspares : ∀ c : Call, c.SparesMeter env := by
    intro c program hp
    have hplan := c.planned env
    rw [hp] at hplan
    cases hplan with
    | host => trivial
  have hquit : ((main.withMeter (.holding 100 0)).answer env 10).map
      (fun e => (e.1, e.2.meter, e.2.context.depth, e.2.interruptRequested)) =
        some (.trap .outOfTicks, .holding 99 1, 0, false) := by decide +kernel
  have hidle : ((main.withMeter (.holding 100 0)).answer env 10).bind (fun e =>
      ((Call.mk ⟨0, 2⟩ [] e.2).answer env 10).map fun e' => (e'.1, e'.2.meter)) =
        some (.void, .holding 97 3) := by decide +kernel
  obtain ⟨⟨result, n⟩, ha, he⟩ := Option.map_eq_some_iff.mp hquit
  obtain ⟨rfl, hmeter, hdepth, hflag⟩ := by simpa only [Prod.mk.injEq] using he
  rw [ha, Option.bind_some] at hidle
  obtain ⟨⟨result', n'⟩, ha', he'⟩ := Option.map_eq_some_iff.mp hidle
  obtain ⟨rfl, hmeter'⟩ := Prod.mk.inj he'
  exact ⟨fun c _ => hspares c, n, n', ha, hmeter, hdepth, hflag, ha', hmeter'⟩

end WasmEngine
