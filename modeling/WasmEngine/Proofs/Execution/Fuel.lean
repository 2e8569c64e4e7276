import Mathlib.Data.List.Basic
import WasmEngine.Proofs.Execution.Depth

/-!
# Fuel

Fuel only bounds how far a run is followed. More of it keeps every answer and shows no other run:
what has been seen of a run stays, and once it has ended nothing is added.
-/
namespace WasmEngine
set_option autoImplicit false

/-- What the first one answers, the second one answers too, and in the same way. -/
def Invoke.Le (invoke invoke' : Invoke) : Prop :=
  ∀ target arguments m e, invoke target arguments m = some e → invoke' target arguments m = some e

section
variable {env : Environment} {invoke invoke' : Invoke} {e : ExecutionResult × Machine}

theorem runHost_le (h : invoke.Le invoke') {program : HostProgram} :
    ∀ {m : Machine} {e : Except Failure ExecutionResult × Machine},
      runHost invoke program m = some e → runHost invoke' program m = some e := by
  induction program with
  | finish result => exact id
  | fail failure => exact id
  | inspect next ih => exact fun {m _} => ih m
  | update change next ih => exact ih
  | call scope target arguments next ih =>
    intro m e
    cases scope with
    | same =>
      rw [runHost, runHost]
      cases ha : invoke target arguments m with
      | none => exact fun ha => by cases ha
      | some answer =>
        rw [h _ _ _ _ ha]
        exact ih answer.1
    | fresh =>
      rw [runHost, runHost]
      cases ha : invoke target arguments (m.withContext {}) with
      | none => exact fun ha => by cases ha
      | some answer =>
        rw [h _ _ _ _ ha]
        exact ih answer.1

theorem callHost_le (h : invoke.Le invoke') {program : HostProgram} {m : Machine}
    (ha : callHost invoke program m = some e) : callHost invoke' program m = some e := by
  unfold callHost at ha ⊢
  cases hr : runHost invoke program m with
  | none =>
    rw [hr] at ha
    cases ha
  | some answer =>
    rw [hr] at ha
    rwa [runHost_le h hr]

theorem runFrame_le (h : invoke.Le invoke') (r : Running) {fuel : Nat} :
    ∀ {fuel' : Nat} {s : FrameState} {m : Machine}, fuel ≤ fuel' →
      runFrame env invoke r fuel s m = some e → runFrame env invoke' r fuel' s m = some e := by
  induction fuel with
  | zero => exact fun _ ha => by cases ha
  | succ fuel ih =>
    intro fuel' s m hfuel
    obtain ⟨fuel', rfl⟩ : ∃ k, fuel' = k + 1 := ⟨fuel' - 1, by omega⟩
    rw [runFrame_succ, runFrame_succ]
    cases turn env.toObservers r s m with
    | next s' m' => exact ih (by omega)
    | done result m' => exact id
    | wait target type s' m' =>
      dsimp only
      cases ha : invoke target (s'.frame.topmost type.inputs.length) m' with
      | none => exact fun ha => by cases ha
      | some answer =>
        rw [h _ _ _ _ ha, Option.bind_some, Option.bind_some]
        cases aborts answer.1 with
        | some kind => exact id
        | none => exact ih (by omega)

/-- More fuel keeps every answer. -/
theorem execute_le (env : Environment) {fuel : Nat} :
    ∀ {fuel' : Nat}, fuel ≤ fuel' → Invoke.Le (execute env fuel) (execute env fuel') := by
  induction fuel with
  | zero => exact fun _ _ _ _ _ ha => by cases ha
  | succ fuel ih =>
    intro fuel' hfuel target arguments m e ha
    obtain ⟨fuel', rfl⟩ : ∃ k, fuel' = k + 1 := ⟨fuel' - 1, by omega⟩
    have hle : Invoke.Le (execute env fuel) (execute env fuel') := ih (by omega)
    rw [← Call.answer.eq_def env (fuel' + 1) ⟨target, arguments, m⟩, Call.answer_succ]
    rw [← Call.answer.eq_def env (fuel + 1) ⟨target, arguments, m⟩, Call.answer_succ] at ha
    cases hp : (Call.mk target arguments m).plan env with
    | refuse kind =>
      rw [hp] at ha
      exact ha
    | link next =>
      rw [hp] at ha
      obtain ⟨e', ha', rfl⟩ := Option.map_eq_some_iff.mp ha
      exact Option.map_eq_some_iff.mpr ⟨e', hle _ _ _ _ ha', rfl⟩
    | host program =>
      rw [hp] at ha
      obtain ⟨e', ha', rfl⟩ := Option.map_eq_some_iff.mp ha
      exact Option.map_eq_some_iff.mpr ⟨e', callHost_le hle ha', rfl⟩
    | frame r s =>
      rw [hp] at ha
      obtain ⟨e', ha', rfl⟩ := Option.map_eq_some_iff.mp ha
      exact Option.map_eq_some_iff.mpr ⟨e', runFrame_le hle r (by omega) ha', rfl⟩

section
variable {r : Running} {s s' : FrameState} {m m' m'' : Machine} {target : FunctionRef}
  {type : FuncType} {result : ExecutionResult} {fuel : Nat}

/-- A frame has an answer if it has one after its next turn. -/
theorem runFrame_next (hturn : turn env.toObservers r s m = .next s' m')
    (h : runFrame env (execute env fuel) r fuel s' m' = some e) :
    runFrame env (execute env (fuel + 1)) r (fuel + 1) s m = some e := by
  rw [runFrame_succ, hturn]
  exact runFrame_le (execute_le env (Nat.le_succ fuel)) r (Nat.le_refl fuel) h

theorem runFrame_abort {kind : TrapKind}
    (hturn : turn env.toObservers r s m = .wait target type s' m')
    (hcall : execute env fuel target (s'.frame.topmost type.inputs.length) m' = some (result, m''))
    (hresult : aborts result = some kind) :
    runFrame env (execute env fuel) r (fuel + 1) s m = some (.trap kind, m'') := by
  rw [runFrame_succ, hturn]
  dsimp only
  rw [hcall, Option.bind_some]
  dsimp only
  rw [hresult]

theorem runFrame_resume {fuel' : Nat}
    (hturn : turn env.toObservers r s m = .wait target type s' m')
    (hcall : execute env fuel target (s'.frame.topmost type.inputs.length) m' = some (result, m''))
    (hresult : aborts result = none)
    (h : runFrame env (execute env fuel') r fuel' (s'.resume type result) m'' = some e) :
    runFrame env (execute env (max fuel fuel' + 1)) r (max fuel fuel' + 1) s m = some e := by
  have hle : fuel' ≤ max fuel fuel' + 1 := by omega
  rw [runFrame_succ, hturn]
  dsimp only
  rw [execute_le env (by omega) _ _ _ _ hcall, Option.bind_some]
  dsimp only
  rw [hresult]
  exact runFrame_le (execute_le env hle) r (Nat.le_max_right ..) h

end

section
variable {target : FunctionRef} {arguments : List Cell} {next : ExecutionResult → HostProgram}
  {result : ExecutionResult} {m m' : Machine} {fuel fuel' : Nat}

/-- A host program has an answer if its call has one and what it does then. -/
theorem callHost_same (hcall : execute env fuel target arguments m = some (result, m'))
    (h : callHost (execute env fuel') (next result) m' = some e) :
    callHost (execute env (max fuel fuel')) (.call .same target arguments next) m = some e := by
  unfold callHost
  rw [runHost, execute_le env (Nat.le_max_left ..) _ _ _ _ hcall]
  exact callHost_le (execute_le env (Nat.le_max_right ..)) h

theorem callHost_fresh
    (hcall : execute env fuel target arguments (m.withContext {}) = some (result, m'))
    (h : callHost (execute env fuel') (next result) (m'.withContext m.context) = some e) :
    callHost (execute env (max fuel fuel')) (.call .fresh target arguments next) m = some e := by
  unfold callHost
  rw [runHost, execute_le env (Nat.le_max_left ..) _ _ _ _ hcall]
  exact callHost_le (execute_le env (Nat.le_max_right ..)) h

end

/-- The calls of a host program that have been seen stay, and an answered program makes no more. -/
theorem hostStages_le (h : invoke.Le invoke') {program : HostProgram} :
    ∀ {m : Machine}, hostStages invoke program m <+: hostStages invoke' program m ∧
      ∀ e, runHost invoke program m = some e →
        hostStages invoke' program m = hostStages invoke program m ∧
        ∀ c, .call c ∈ hostStages invoke program m →
          ∃ e', invoke c.target c.arguments c.machine = some e' := by
  induction program with
  | finish result =>
    exact fun {m} => ⟨List.prefix_rfl, fun _ _ => ⟨rfl, fun _ hc => by cases hc⟩⟩
  | fail failure =>
    exact fun {m} => ⟨List.prefix_rfl, fun _ _ => ⟨rfl, fun _ hc => by cases hc⟩⟩
  | inspect next ih => exact fun {m} => ih m
  | update change next ih => exact ih
  | call scope target arguments next ih =>
    intro m
    cases scope with
    | same =>
      rw [hostStages, hostStages, runHost, List.prefix_cons_inj]
      cases ha : invoke target arguments m with
      | none =>
        exact ⟨List.nil_prefix, fun _ he => by cases he⟩
      | some answer =>
        rw [h _ _ _ _ ha]
        obtain ⟨hbegin, hrest⟩ := @ih answer.1 answer.2
        refine ⟨hbegin, fun e he => ?_⟩
        obtain ⟨hsame, hcalls⟩ := hrest e he
        refine ⟨congrArg (List.cons _) hsame, fun c hc => ?_⟩
        rcases List.mem_cons.mp hc with hc | hc
        · obtain rfl := Stage.call.inj hc
          exact ⟨answer, ha⟩
        · exact hcalls c hc
    | fresh =>
      rw [hostStages, hostStages, runHost]
      cases ha : invoke target arguments (m.withContext {}) with
      | none => exact ⟨List.nil_prefix, fun _ he => by cases he⟩
      | some answer =>
        rw [h _ _ _ _ ha]
        exact ih answer.1

/-- The stages of a frame that have been seen stay, and an answered frame has no more. -/
theorem frameStages_le (env : Environment) (h : invoke.Le invoke') (r : Running) {fuel : Nat} :
    ∀ {fuel' : Nat} {s : FrameState} {m : Machine}, fuel ≤ fuel' →
      frameStages env.toObservers invoke r fuel s m <+:
          frameStages env.toObservers invoke' r fuel' s m ∧
        ∀ e, runFrame env invoke r fuel s m = some e →
          frameStages env.toObservers invoke' r fuel' s m =
            frameStages env.toObservers invoke r fuel s m ∧
          ∀ c, .call c ∈ frameStages env.toObservers invoke r fuel s m →
            ∃ e', invoke c.target c.arguments c.machine = some e' := by
  induction fuel with
  | zero => exact fun _ => ⟨List.nil_prefix, fun _ he => by cases he⟩
  | succ fuel ih =>
    intro fuel' s m hfuel
    obtain ⟨fuel', rfl⟩ : ∃ k, fuel' = k + 1 := ⟨fuel' - 1, by omega⟩
    rw [runFrame_succ, frameStages, frameStages, List.prefix_cons_inj]
    have hcons : ∀ {l : List Stage} {c : Call} {x : Moment}, .call c ∈ Stage.instruction x :: l →
        .call c ∈ l := fun hc => (List.mem_cons.mp hc).resolve_left fun h => by cases h
    cases turn env.toObservers r s m with
    | next s' m' =>
      obtain ⟨hbegin, hrest⟩ := @ih fuel' s' m' (by omega)
      refine ⟨hbegin, fun e he => ?_⟩
      obtain ⟨hsame, hcalls⟩ := hrest e he
      exact ⟨congrArg (List.cons _) hsame, fun c hc => hcalls c (hcons hc)⟩
    | done result m' =>
      exact ⟨List.prefix_rfl, fun _ _ => ⟨rfl, fun c hc => by cases hcons hc⟩⟩
    | wait target type s' m' =>
      dsimp only
      rw [List.prefix_cons_inj]
      cases ha : invoke target (s'.frame.topmost type.inputs.length) m' with
      | none => exact ⟨List.nil_prefix, fun _ he => by cases he⟩
      | some answer =>
        rw [h _ _ _ _ ha, Option.bind_some]
        have hfirst : ∀ {l : List Stage} {c : Call}, .call c ∈
            Stage.call ⟨target, s'.frame.topmost type.inputs.length, m'⟩ :: l →
            (∃ e', invoke c.target c.arguments c.machine = some e') ∨ .call c ∈ l := by
          intro l c hc
          refine (List.mem_cons.mp hc).imp_left fun hc => ?_
          obtain rfl := Stage.call.inj hc
          exact ⟨answer, ha⟩
        dsimp only
        cases aborts answer.1 with
        | some kind =>
          refine ⟨List.prefix_rfl, fun _ _ => ⟨rfl, fun c hc => ?_⟩⟩
          exact (hfirst (hcons hc)).resolve_right (fun hc => by cases hc)
        | none =>
          obtain ⟨hbegin, hrest⟩ := @ih fuel' (s'.resume type answer.1) answer.2 (by omega)
          refine ⟨hbegin, fun e he => ?_⟩
          obtain ⟨hsame, hcalls⟩ := hrest e he
          refine ⟨by rw [hsame], fun c hc => ?_⟩
          exact (hfirst (hcons hc)).elim id (hcalls c)

namespace Call

variable {fuel fuel' : Nat} {c : Call}

/-- The stages of a call that have been seen stay, and an answered call has no more. -/
theorem stages_le (env : Environment) (h : fuel ≤ fuel') (c : Call) :
    c.stages env fuel <+: c.stages env fuel' ∧
      ∀ e, c.answer env (fuel + 1) = some e →
        c.stages env fuel' = c.stages env fuel ∧
        ∀ c', .call c' ∈ c.stages env fuel → ∃ e', c'.answer env fuel = some e' := by
  have hle := execute_le env h
  unfold stages
  rw [answer_succ]
  cases c.plan env with
  | refuse kind => exact ⟨List.prefix_rfl, fun _ _ => ⟨rfl, fun _ hc => by cases hc⟩⟩
  | link target =>
    refine ⟨List.prefix_rfl, fun e he => ⟨rfl, fun c' hc => ?_⟩⟩
    obtain rfl := Stage.call.inj (List.mem_singleton.mp hc)
    obtain ⟨e', ha, -⟩ := Option.map_eq_some_iff.mp he
    exact ⟨e', ha⟩
  | host program =>
    obtain ⟨hbegin, hrest⟩ := @hostStages_le _ _ hle program c.machine.enter
    refine ⟨hbegin, fun e he => ?_⟩
    obtain ⟨e', ha, -⟩ := Option.map_eq_some_iff.mp he
    unfold callHost at ha
    cases hr : runHost (execute env fuel) program c.machine.enter with
    | none =>
      rw [hr] at ha
      cases ha
    | some answer => exact hrest answer hr
  | frame r s =>
    obtain ⟨hbegin, hrest⟩ := frameStages_le env hle r (s := s) (m := c.machine.enter) h
    refine ⟨hbegin, fun e he => ?_⟩
    obtain ⟨e', ha, -⟩ := Option.map_eq_some_iff.mp he
    exact hrest e' ha

/-- The calls and instructions of a run that have been seen stay. -/
theorem seen_le (env : Environment) : ∀ {fuel' : Nat} {c : Call}, fuel ≤ fuel' →
    c.calls env fuel ⊆ c.calls env fuel' ∧ c.moments env fuel ⊆ c.moments env fuel' := by
  induction fuel with
  | zero =>
    intro fuel' c _
    exact ⟨List.cons_subset.mpr ⟨mem_calls_self env fuel' c, List.nil_subset _⟩,
      List.nil_subset _⟩
  | succ fuel ih =>
    intro fuel' c h
    obtain ⟨fuel', rfl⟩ : ∃ k, fuel' = k + 1 := ⟨fuel' - 1, by omega⟩
    have hle : fuel ≤ fuel' := by omega
    have hstages := (stages_le env hle c).1.subset
    rw [calls, calls, moments, moments]
    constructor
    · refine List.cons_subset_cons _ fun c'' hc'' => ?_
      obtain ⟨x, hx, hmem⟩ := List.mem_flatMap.mp hc''
      refine List.mem_flatMap.mpr ⟨x, hstages hx, ?_⟩
      cases x with
      | instruction x => cases hmem
      | call c' => exact (ih hle).1 hmem
    · intro y hy
      obtain ⟨x, hx, hmem⟩ := List.mem_flatMap.mp hy
      refine List.mem_flatMap.mpr ⟨x, hstages hx, ?_⟩
      cases x with
      | instruction x => exact hmem
      | call c' => exact (ih hle).2 hmem

/-- Once a run has ended, more fuel shows no more calls and instructions of it. -/
theorem seen_eq : ∀ {fuel' : Nat} {c : Call} {e : ExecutionResult × Machine}, fuel ≤ fuel' →
    c.answer env fuel = some e →
      c.calls env fuel' = c.calls env fuel ∧ c.moments env fuel' = c.moments env fuel := by
  induction fuel with
  | zero => exact fun _ ha => by cases ha
  | succ fuel ih =>
    intro fuel' c e h ha
    obtain ⟨fuel', rfl⟩ : ∃ k, fuel' = k + 1 := ⟨fuel' - 1, by omega⟩
    have hle : fuel ≤ fuel' := by omega
    obtain ⟨hstages, hcalls⟩ := (stages_le env hle c).2 e ha
    rw [calls, calls, moments, moments, hstages]
    constructor
    · congr 1
      refine List.flatMap_congr fun x hx => ?_
      cases x with
      | instruction x => rfl
      | call c' =>
        obtain ⟨e', ha'⟩ := hcalls c' hx
        exact (ih hle ha').1
    · refine List.flatMap_congr fun x hx => ?_
      cases x with
      | instruction x => rfl
      | call c' =>
        obtain ⟨e', ha'⟩ := hcalls c' hx
        exact (ih hle ha').2

/-- A run that has ended has shown all its calls and instructions. -/
theorem seen_of_answer (ha : c.answer env fuel = some e) (fuel' : Nat) :
    c.calls env fuel' ⊆ c.calls env fuel ∧ c.moments env fuel' ⊆ c.moments env fuel := by
  rcases Nat.le_total fuel fuel' with h | h
  · obtain ⟨hcalls, hmoments⟩ := seen_eq h ha
    exact ⟨hcalls ▸ List.Subset.refl _, hmoments ▸ List.Subset.refl _⟩
  · exact seen_le env h

end Call

end

end WasmEngine
