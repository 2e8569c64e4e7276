import WasmEngine.Proofs.Execution.Fuel
import WasmEngine.Proofs.Execution.Metering

/-!
# The budget of a metered run

What a run takes from its ticks when host functions may look at the meter and call back in the same
context, but do not write the context themselves. A frame that finds no tick takes one all the same,
and a host function that has called it may go on and call again. So the ticks may fall below zero by
more than one, but no instruction is run then; this holds as long as the counter is not decremented
at its least value.
-/
namespace WasmEngine
set_option autoImplicit false

/-- The program does not write the context it runs in. -/
def HostProgram.KeepsContext : HostProgram → Prop
  | .finish _ => True
  | .fail _ => True
  | .inspect next => ∀ m, (next m).KeepsContext
  | .update change next => (∀ m : Machine, (change m).context = m.context) ∧ next.KeepsContext
  | .call _ _ _ next => ∀ result, (next result).KeepsContext

theorem HostProgram.KeepsContext.keepsDepth {program : HostProgram} (h : program.KeepsContext) :
    program.KeepsDepth := by
  induction program with
  | finish => trivial
  | fail => trivial
  | inspect next ih => exact fun m => ih m (h m)
  | update change next ih => exact ⟨fun m => congrArg Context.depth (h.1 m), ih h.2⟩
  | call scope target arguments next ih => exact fun result => ih result (h result)

/-- The machine is metered and `t` ticks are left. -/
def Machine.HasTicks (m : Machine) (t : Int) : Prop := ∃ u, m.meter = .holding t u

theorem Machine.HasTicks.of_context_eq {m m' : Machine} {t : Int} (h : m.HasTicks t)
    (hm : m'.context = m.context) : m'.HasTicks t := by
  obtain ⟨u, hu⟩ := h
  exact ⟨u, (congrArg Context.meter hm).trans hu⟩

theorem Machine.hasTicks_of_metering {m : Machine} (h : m.context.metering = true) :
    m.HasTicks m.context.ticks.toInt := by
  refine ⟨m.context.steps, ?_⟩
  unfold meter Context.meter Meter.holding
  rw [h, Int64.ofInt_toInt]

/-- The counter is above its least value, in a steady run because it was so at the start. -/
theorem Machine.HasTicks.least_lt {m : Machine} {t : Int} {steady : Prop} (h : m.HasTicks t)
    (hlow : -2 ^ 63 ≤ t) (hfirst : steady → -2 ^ 63 < t)
    (hne : ¬ steady → m.context.ticks ≠ Int64.minValue) : -2 ^ 63 < t := by
  by_cases hs : steady
  · exact hfirst hs
  · obtain ⟨u, hu⟩ := h
    have hticks : m.context.ticks = Int64.ofInt t := congrArg Meter.ticks hu
    refine Int.lt_iff_le_and_ne.mpr ⟨hlow, ?_⟩
    rintro rfl
    exact hne hs (hticks.trans rfl)

namespace Call

variable (env : Environment)

/-- The second call is made by the first one itself, in its context. -/
def Makes (c c' : Call) : Prop := ∃ fuel, .call c' ∈ c.stages env fuel

/-- If the call runs a host function, that does not write the context. -/
def KeepsContext (c : Call) : Prop :=
  ∀ program, c.plan env = .host program → program.KeepsContext

/-- The call runs a host function that calls back in the same context. -/
def CallsBack (c : Call) : Prop := c.RunsHost env ∧ ∃ c', c.Makes env c'

/-- Nothing in the run of the call writes the context but the engine, and the counter is not
decremented at its least value. If the run is `steady`, no host function calls back; then the second
condition is not needed. -/
structure Billed (steady : Prop) (c : Call) : Prop where
  keeps : ∀ fuel, ∀ c' ∈ c.calls env fuel, c'.KeepsContext env
  counter : ¬ steady → ∀ fuel, ∀ x ∈ c.moments env fuel,
    x.machine.context.ticks ≠ Int64.minValue
  alone : steady → ∀ fuel, ∀ c' ∈ c.calls env fuel, ¬ c'.CallsBack env

variable {env} {c c' : Call} {steady : Prop}

/-- What is seen beneath a call that is made is seen beneath the call that makes it. -/
theorem Makes.seen (h : c.Makes env c') (fuel : Nat) : ∃ fuel',
    c'.calls env fuel ⊆ c.calls env fuel' ∧ c'.moments env fuel ⊆ c.moments env fuel' := by
  obtain ⟨k, hk⟩ := h
  have hstage : .call c' ∈ c.stages env (max k fuel) :=
    (stages_le env (Nat.le_max_left k fuel) c).1.subset hk
  obtain ⟨hcalls, hmoments⟩ := seen_le env (c := c') (Nat.le_max_right k fuel)
  refine ⟨max k fuel + 1, fun c'' hc'' => mem_calls_of_stage env hstage (hcalls hc''), ?_⟩
  exact fun x hx => List.mem_flatMap.mpr ⟨_, hstage, hmoments hx⟩

/-- What holds of all calls beneath a call holds of those beneath one that it makes. -/
theorem Makes.forall_calls {P : Call → Prop} (h : c.Makes env c')
    (hP : ∀ fuel, ∀ c'' ∈ c.calls env fuel, P c'') (fuel : Nat) :
    ∀ c'' ∈ c'.calls env fuel, P c'' := by
  obtain ⟨fuel', hcalls, -⟩ := h.seen fuel
  exact fun c'' hc'' => hP fuel' c'' (hcalls hc'')

theorem Billed.of_makes (h : c.Billed env steady) (hc : c.Makes env c') : c'.Billed env steady where
  keeps := hc.forall_calls h.keeps
  counter hsteady fuel x hx := by
    obtain ⟨fuel', -, hmoments⟩ := hc.seen fuel
    exact h.counter hsteady fuel' x (hmoments hx)
  alone hsteady := hc.forall_calls (h.alone hsteady)

theorem Billed.keeps_self (h : c.Billed env steady) : c.KeepsContext env :=
  h.keeps 0 c (mem_calls_self env 0 c)

theorem Billed.alone_self (h : c.Billed env steady) (hsteady : steady) : ¬ c.CallsBack env :=
  h.alone hsteady 0 c (mem_calls_self env 0 c)

theorem Billed.counter_self (h : c.Billed env steady) {x : Moment} {fuel : Nat}
    (hx : .instruction x ∈ c.stages env fuel) (hsteady : ¬ steady) :
    x.machine.context.ticks ≠ Int64.minValue :=
  h.counter hsteady (fuel + 1) x (List.mem_flatMap.mpr ⟨_, hx, List.mem_singleton.mpr rfl⟩)

theorem Billed.depth_eq (h : c.Billed env steady) {fuel : Nat} {e : ExecutionResult × Machine}
    (ha : c.answer env fuel = some e) : e.2.context.depth = c.machine.context.depth :=
  (descends fuel c fun c' hc' program hp => (h.keeps fuel c' hc' program hp).keepsDepth).answer e ha

end Call

/-- The ticks that a computation leaves when it began with `t` and ran `k` instructions. In a steady
run they fall below zero only if the computation ends with a reason. -/
def Leaves (steady : Prop) (t : Int) (k : Nat) (ends : Prop) (n : Machine) : Prop :=
  ∃ t', n.HasTicks t' ∧ -2 ^ 63 ≤ t' ∧ t' ≤ t - k ∧ (steady → ¬ ends → min t 0 ≤ t')

theorem Leaves.unchanged {steady ends : Prop} {t : Int} {n : Machine} (hn : n.HasTicks t)
    (hlow : -2 ^ 63 ≤ t) : Leaves steady t 0 ends n :=
  ⟨t, hn, hlow, by omega, fun _ _ => by omega⟩

/-- A run that begins with `t` ticks runs at most so many instructions and leaves what it must. -/
structure Spends (steady : Prop) (t : Int) (k : Nat) (o : Option (ExecutionResult × Machine)) :
    Prop where
  bound : (k : Int) ≤ max t 0
  left : ∀ e, o = some e → Leaves steady t k (aborts e.1 ≠ none) e.2

namespace Spends

variable {steady : Prop} {t : Int} {k l : Nat} {o : Option (ExecutionResult × Machine)}
  {e : ExecutionResult × Machine}

theorem unanswered (hk : (k : Int) ≤ max t 0) : Spends steady t k none := ⟨hk, nofun⟩

/-- What comes after `k` instructions that left `t'` ticks. -/
theorem after {t' : Int} (hk : (k : Int) ≤ max t 0) (ht' : t' ≤ t - k)
    (hsteady : steady → min t 0 ≤ t') (h : Spends steady t' l o) : Spends steady t (k + l) o := by
  have hbound := h.bound
  refine ⟨by omega, fun e he => ?_⟩
  obtain ⟨t'', hn, hlow, hle, hfloor⟩ := h.left e he
  refine ⟨t'', hn, hlow, by omega, fun hs he => ?_⟩
  have hfirst := hsteady hs
  have hlast := hfloor hs he
  omega

theorem pay (hpos : 0 < t) (h : Spends steady (t - 1) l o) : Spends steady t (1 + l) o :=
  h.after (by omega) (by omega) (fun _ => by omega)

theorem leave (h : Spends steady t k o) :
    Spends steady t k (o.map fun e => (e.1, e.2.leave)) := by
  refine ⟨h.bound, fun e he => ?_⟩
  obtain ⟨e', ho, rfl⟩ := Option.map_eq_some_iff.mp he
  exact h.left e' ho

end Spends

namespace Call

variable (env : Environment)

/-- The call spends its ticks as it must, from wherever they start. -/
def SpendsTicks (fuel : Nat) (steady : Prop) (c : Call) : Prop :=
  ∀ t : Int, c.machine.HasTicks t → -2 ^ 63 ≤ t → t < 2 ^ 63 → (steady → -2 ^ 63 < t) →
    Spends steady t (c.instructions env fuel).length (c.answer env fuel)

end Call

section
variable {env : Environment} {fuel : Nat} {r : Running} {s : FrameState} {m : Machine}
  {l : List Stage} {o : Option (ExecutionResult × Machine)} {steady : Prop}

/-- A frame that goes on has paid for its instruction. -/
theorem Machine.HasTicks.turn {t : Int} {x : Turn} (hm : m.HasTicks t) (hlow : -2 ^ 63 < t)
    (hhigh : t < 2 ^ 63) (hturn : WasmEngine.turn env.toObservers r s m = x)
    (hne : ∀ result n, x ≠ .done result n) :
    0 < t ∧ Moment.dispatched ⟨r, s, m⟩ = true ∧ x.machine.HasTicks (t - 1) := by
  obtain ⟨u, hu⟩ := hm
  subst hturn
  obtain ⟨hpos, hx, hm'⟩ := turn_goes_on hu hlow hhigh hne
  exact ⟨hpos, hx, u + 1, hm'⟩

/-- A frame spends its ticks as it must if its calls do. -/
theorem FrameRun.spends (h : FrameRun env.toObservers (execute env fuel) r s m l o) {t : Int}
    (hm : m.HasTicks t) (hlow : -2 ^ 63 ≤ t) (hhigh : t < 2 ^ 63) (hfirst : steady → -2 ^ 63 < t)
    (hcounter : ∀ x, .instruction x ∈ l → ¬ steady → x.machine.context.ticks ≠ Int64.minValue)
    (hcalls : ∀ c, .call c ∈ l → c.SpendsTicks env fuel steady) :
    Spends steady t (costOf env fuel l) o := by
  induction h generalizing t with
  | cut =>
    rw [costOf_nil]
    exact ⟨by omega, fun _ he => by cases he⟩
  | @next s s' m m' l o hturn hrest ih =>
    have hleast := hm.least_lt hlow hfirst (hcounter _ (.head _))
    obtain ⟨hpos, hx, hm'⟩ := hm.turn hleast hhigh hturn nofun
    rw [costOf_instruction hx]
    exact (ih hm' (by omega) (by omega) (fun _ => by omega) (fun x hx => hcounter x (.tail _ hx))
      fun c hc => hcalls c (.tail _ hc)).pay hpos
  | @done s m m' result hturn =>
    have hleast := hm.least_lt hlow hfirst (hcounter _ (.head _))
    obtain ⟨u, hu⟩ := hm
    obtain ⟨hpos, hx, hm', -⟩ | ⟨hnonpos, hx, hturn'⟩ :=
      turn_metered env.toObservers r s hu hleast hhigh
    · rw [hturn] at hm'
      rw [costOf_instruction hx, costOf_nil]
      refine .pay hpos ⟨by omega, ?_⟩
      rintro _ ⟨⟩
      exact ⟨t - 1, ⟨u + 1, hm'⟩, by omega, by omega, fun _ _ => by omega⟩
    · obtain ⟨rfl, rfl⟩ := Turn.done.inj (hturn.symm.trans hturn')
      rw [costOf_unpaid hx]
      refine ⟨by omega, ?_⟩
      rintro _ ⟨⟩
      exact ⟨t - 1, ⟨u, rfl⟩, by omega, by omega, fun _ hends => absurd nofun hends⟩
  | @unanswered s s' m m' target type hturn hcall =>
    have hleast := hm.least_lt hlow hfirst (hcounter _ (.head _))
    obtain ⟨hpos, hx, hm'⟩ := hm.turn hleast hhigh hturn nofun
    have hcalled := hcalls _ (.tail _ (.head _)) _ hm' (by omega) (by omega) (fun _ => by omega)
    rw [costOf_instruction hx, costOf_call, costOf_nil]
    exact Spends.pay hpos (.unanswered hcalled.bound)
  | @aborted s s' m m' m'' target type kind hturn hcall hkind =>
    have hleast := hm.least_lt hlow hfirst (hcounter _ (.head _))
    obtain ⟨hpos, hx, hm'⟩ := hm.turn hleast hhigh hturn nofun
    have hcalled := hcalls _ (.tail _ (.head _)) _ hm' (by omega) (by omega) (fun _ => by omega)
    rw [Call.answer, hcall] at hcalled
    rw [costOf_instruction hx, costOf_call, costOf_nil]
    exact hcalled.pay hpos
  | @resumed s s' m m' m'' target type result l o hturn hcall hresult hrest ih =>
    have hleast := hm.least_lt hlow hfirst (hcounter _ (.head _))
    obtain ⟨hpos, hx, hm'⟩ := hm.turn hleast hhigh hturn nofun
    have hcalled := hcalls _ (.tail _ (.head _)) _ hm' (by omega) (by omega) (fun _ => by omega)
    rw [Call.answer, hcall] at hcalled
    obtain ⟨t', hm'', hlow', hle, hfloor⟩ := hcalled.left _ rfl
    have hends : ¬ aborts result ≠ none := not_not.mpr hresult
    have hrest := ih hm'' hlow' (by omega) (fun hs => by have := hfloor hs hends; omega)
      (fun x hx => hcounter x (.tail _ (.tail _ hx))) fun c hc => hcalls c (.tail _ (.tail _ hc))
    rw [costOf_instruction hx, costOf_call]
    exact (hrest.after hcalled.bound hle fun hs => hfloor hs hends).pay hpos

/-- So does a host program that does not write the context. It runs no instruction itself, and if it
does not call back, it leaves the ticks that it finds. -/
theorem runHost_spends {program : HostProgram} (hp : program.KeepsContext) {m : Machine} {t : Int}
    (hm : m.HasTicks t) (hlow : -2 ^ 63 ≤ t) (hhigh : t < 2 ^ 63)
    (hback : ∀ c, .call c ∈ hostStages (execute env fuel) program m → ¬ steady)
    (hcalls : ∀ c, .call c ∈ hostStages (execute env fuel) program m →
      c.SpendsTicks env fuel steady) :
    (costOf env fuel (hostStages (execute env fuel) program m) : Int) ≤ max t 0 ∧
      ∀ e, runHost (execute env fuel) program m = some e →
        Leaves steady t (costOf env fuel (hostStages (execute env fuel) program m)) False e.2 := by
  induction program generalizing m t with
  | finish result =>
    rw [hostStages, costOf_nil]
    refine ⟨by omega, ?_⟩
    rintro _ ⟨⟩
    exact .unchanged hm hlow
  | fail failure =>
    rw [hostStages, costOf_nil]
    refine ⟨by omega, ?_⟩
    rintro _ ⟨⟩
    exact .unchanged hm hlow
  | inspect next ih => exact ih m (hp m) hm hlow hhigh hback hcalls
  | update change next ih =>
    exact ih hp.2 (hm.of_context_eq (hp.1 m)) hlow hhigh hback hcalls
  | call scope target arguments next ih =>
    cases scope with
    | same =>
      rw [hostStages] at hback hcalls ⊢
      rw [runHost]
      have hsteady := hback _ (.head _)
      have hcalled := hcalls _ (.head _) t hm hlow hhigh fun hs => absurd hs hsteady
      cases ha : execute env fuel target arguments m with
      | none =>
        rw [costOf_call, costOf_nil]
        exact ⟨hcalled.bound, fun _ he => by cases he⟩
      | some answer =>
        obtain ⟨t', hm', hlow', hle, -⟩ := hcalled.left answer ha
        rw [ha] at hcalls
        obtain ⟨hbound, hleft⟩ := ih answer.1 (hp answer.1) hm' hlow' (by omega)
          (fun _ _ => hsteady) fun c hc => hcalls c (.tail _ hc)
        have hbound' := hcalled.bound
        rw [costOf_call]
        dsimp only
        refine ⟨by omega, fun e he => ?_⟩
        obtain ⟨t'', hn, hlow'', hle', -⟩ := hleft e he
        exact ⟨t'', hn, hlow'', by omega, fun hs => absurd hs hsteady⟩
    | fresh =>
      rw [hostStages] at hback hcalls ⊢
      rw [runHost]
      cases ha : execute env fuel target arguments (m.withContext {}) with
      | none =>
        rw [costOf_nil]
        exact ⟨by omega, fun _ he => by cases he⟩
      | some answer =>
        rw [ha] at hback hcalls
        exact ih answer.1 (hp answer.1) (hm.of_context_eq rfl) hlow hhigh hback hcalls

theorem callHost_spends {program : HostProgram} (hp : program.KeepsContext) {m : Machine} {t : Int}
    (hm : m.HasTicks t) (hlow : -2 ^ 63 ≤ t) (hhigh : t < 2 ^ 63)
    (hback : ∀ c, .call c ∈ hostStages (execute env fuel) program m → ¬ steady)
    (hcalls : ∀ c, .call c ∈ hostStages (execute env fuel) program m →
      c.SpendsTicks env fuel steady) :
    Spends steady t (costOf env fuel (hostStages (execute env fuel) program m))
      (callHost (execute env fuel) program m) := by
  obtain ⟨hbound, hleft⟩ := runHost_spends hp hm hlow hhigh hback hcalls
  refine ⟨hbound, ?_⟩
  unfold callHost
  cases hr : runHost (execute env fuel) program m with
  | none => exact fun _ he => by cases he
  | some answer =>
    obtain ⟨t', hn, hlow', hle, hfloor⟩ := hleft answer hr
    obtain ⟨_ | _, n⟩ := answer
    all_goals
      rintro _ ⟨⟩
      exact ⟨t', hn, hlow', hle, fun hs _ => hfloor hs id⟩

end

namespace Call

variable {env : Environment} {c : Call} {steady : Prop}

/-- A call that is billed spends its ticks as it must if the calls that it makes do. -/
theorem Billed.spends_succ (h : c.Billed env steady) {fuel : Nat}
    (hcalls : ∀ c', .call c' ∈ c.stages env fuel → c'.SpendsTicks env fuel steady) :
    c.SpendsTicks env (fuel + 1) steady := by
  intro t hm hlow hhigh hfirst
  have hentered : c.machine.enter.HasTicks t := hm
  rw [instructions_succ]
  change Spends steady t (costOf env fuel (c.stages env fuel)) _
  rw [answer_succ]
  cases hp : c.plan env with
  | refuse kind =>
    rw [stages, hp, costOf_nil]
    refine ⟨by omega, ?_⟩
    rintro _ ⟨⟩
    exact .unchanged hm hlow
  | link target =>
    have hstages : c.stages env fuel = [.call (c.next target)] := by rw [stages, hp]
    rw [hstages] at hcalls ⊢
    rw [costOf_call, costOf_nil]
    exact (hcalls _ (.head _) t hm hlow hhigh hfirst).leave
  | host program =>
    have hstages : c.stages env fuel = hostStages (execute env fuel) program c.machine.enter := by
      rw [stages, hp]
    have hback : ∀ c', .call c' ∈ c.stages env fuel → ¬ steady := fun c' hc' hs =>
      h.alone_self hs ⟨⟨program, hp⟩, c', fuel, hc'⟩
    rw [hstages] at hback hcalls ⊢
    exact (callHost_spends (h.keeps_self program hp) hentered hlow hhigh hback hcalls).leave
  | frame r s =>
    have hstages : c.stages env fuel =
        frameStages env.toObservers (execute env fuel) r fuel s c.machine.enter := by
      rw [stages, hp]
    have hcounter : ∀ x, .instruction x ∈ c.stages env fuel → ¬ steady →
        x.machine.context.ticks ≠ Int64.minValue := fun x hx => h.counter_self hx
    rw [hstages] at hcounter hcalls ⊢
    exact ((frameRun env (execute env fuel) r fuel s c.machine.enter).spends hentered hlow hhigh
      hfirst hcounter hcalls).leave

/-- A call that is billed spends its ticks as it must, by induction on the nesting of calls. -/
theorem Billed.spends (fuel : Nat) : ∀ {c : Call}, c.Billed env steady →
    c.SpendsTicks env fuel steady := by
  induction fuel with
  | zero =>
    intro c _ t _ _ _ _
    rw [instructions, List.length_nil]
    exact ⟨by omega, fun _ he => by cases he⟩
  | succ fuel ih => exact fun h => h.spends_succ fun c' hc' => ih (h.of_makes ⟨fuel, hc'⟩)

end Call

end WasmEngine
