import WasmEngine.Proofs.Execution.Fuel

/-!
# Configurations

A run as small steps. A configuration is what is being done now, and what waits for it: the open
frames, host functions and imported functions, the innermost first. What a host function calls in a
context of its own is a run of its own, and one step of this one. `answer_iff_reaches` says that the
steps lead to an answer exactly if it is the answer of the call.
-/
namespace WasmEngine
set_option autoImplicit false

/-- What a run is at. -/
inductive Control where
  | call (c : Call)
  | frame (r : Running) (s : FrameState) (m : Machine)
  | host (program : HostProgram) (m : Machine)
  /-- A call has ended. -/
  | answer (result : ExecutionResult) (m : Machine)

namespace Control

def machine : Control → Machine
  | .call c => c.machine
  | .frame _ _ m | .host _ m | .answer _ m => m

end Control

/-- What waits for the answer of a call. -/
inductive Waiting where
  /-- A frame, in the state behind its call. -/
  | frame (r : Running) (type : FuncType) (s : FrameState)
  | host (next : ExecutionResult → HostProgram)
  | link

/-- How it goes on with the answer. -/
def Waiting.goOn (result : ExecutionResult) (m : Machine) : Waiting → Control
  | .frame r type s =>
    match aborts result with
    | some kind => .answer (.trap kind) m.leave
    | none => .frame r (s.resume type result) m
  | .host next => .host (next result) m
  | .link => .answer result m.leave

structure Configuration where
  control : Control
  waiting : List Waiting

/-- The configuration in which a call begins a run. -/
def Call.start (c : Call) : Configuration := ⟨.call c, []⟩

namespace Configuration

def machine (κ : Configuration) : Machine := κ.control.machine

section
variable (env : Environment)

inductive Step : Configuration → Configuration → Prop
  | refuse {c : Call} {kind : TrapKind} {w : List Waiting} (h : c.plan env = .refuse kind) :
      Step ⟨.call c, w⟩ ⟨.answer (.trap kind) c.machine, w⟩
  | link {c : Call} {target : FunctionRef} {w : List Waiting} (h : c.plan env = .link target) :
      Step ⟨.call c, w⟩ ⟨.call (c.next target), .link :: w⟩
  | enterHost {c : Call} {program : HostProgram} {w : List Waiting}
      (h : c.plan env = .host program) : Step ⟨.call c, w⟩ ⟨.host program c.machine.enter, w⟩
  | enterFrame {c : Call} {r : Running} {s : FrameState} {w : List Waiting}
      (h : c.plan env = .frame r s) : Step ⟨.call c, w⟩ ⟨.frame r s c.machine.enter, w⟩
  | next {r : Running} {s s' : FrameState} {m m' : Machine} {w : List Waiting}
      (h : turn env.toObservers r s m = .next s' m') : Step ⟨.frame r s m, w⟩ ⟨.frame r s' m', w⟩
  | done {r : Running} {s : FrameState} {m m' : Machine} {result : ExecutionResult}
      {w : List Waiting} (h : turn env.toObservers r s m = .done result m') :
      Step ⟨.frame r s m, w⟩ ⟨.answer result m'.leave, w⟩
  | wait {r : Running} {s s' : FrameState} {m m' : Machine} {target : FunctionRef}
      {type : FuncType} {w : List Waiting}
      (h : turn env.toObservers r s m = .wait target type s' m') :
      Step ⟨.frame r s m, w⟩
        ⟨.call ⟨target, s'.frame.topmost type.inputs.length, m'⟩, .frame r type s' :: w⟩
  | finish {result : ExecutionResult} {m : Machine} {w : List Waiting} :
      Step ⟨.host (.finish result) m, w⟩ ⟨.answer result m.leave, w⟩
  | fail {failure : Failure} {m : Machine} {w : List Waiting} :
      Step ⟨.host (.fail failure) m, w⟩
        ⟨.answer (.trap .host) (m.emit (.notice (.hostFailed failure))).leave, w⟩
  | inspect {next : Machine → HostProgram} {m : Machine} {w : List Waiting} :
      Step ⟨.host (.inspect next) m, w⟩ ⟨.host (next m) m, w⟩
  | update {change : Machine → Machine} {next : HostProgram} {m : Machine} {w : List Waiting} :
      Step ⟨.host (.update change next) m, w⟩ ⟨.host next (change m), w⟩
  | callSame {target : FunctionRef} {arguments : List Cell} {next : ExecutionResult → HostProgram}
      {m : Machine} {w : List Waiting} :
      Step ⟨.host (.call .same target arguments next) m, w⟩
        ⟨.call ⟨target, arguments, m⟩, .host next :: w⟩
  | callFresh {target : FunctionRef} {arguments : List Cell}
      {next : ExecutionResult → HostProgram} {m m' : Machine} {result : ExecutionResult}
      {fuel : Nat} {w : List Waiting}
      (h : execute env fuel target arguments (m.withContext {}) = some (result, m')) :
      Step ⟨.host (.call .fresh target arguments next) m, w⟩
        ⟨.host (next result) (m'.withContext m.context), w⟩
  | goOn {result : ExecutionResult} {m : Machine} {x : Waiting} {w : List Waiting} :
      Step ⟨.answer result m, x :: w⟩ ⟨x.goOn result m, w⟩

/-- A part of a run, with the configurations that it passes before it comes to the last one. -/
inductive Passes : Configuration → List Configuration → Configuration → Prop
  | refl (κ : Configuration) : Passes κ [] κ
  | step {κ κ' κ'' : Configuration} {l : List Configuration} (h : Step env κ κ')
      (hrest : Passes κ' l κ'') : Passes κ (κ :: l) κ''

def Reaches (κ κ' : Configuration) : Prop := ∃ l, Passes env κ l κ'

end

section
variable {env : Environment} {κ κ' κ'' : Configuration} {l l' : List Configuration}

theorem Passes.trans (h : Passes env κ l κ') (h' : Passes env κ' l' κ'') :
    Passes env κ (l ++ l') κ'' := by
  induction h with
  | refl => exact h'
  | step hstep _ ih => exact .step hstep (ih h')

theorem Reaches.refl (κ : Configuration) : Reaches env κ κ := ⟨[], .refl κ⟩

theorem Reaches.trans (h : Reaches env κ κ') (h' : Reaches env κ' κ'') : Reaches env κ κ'' :=
  let ⟨_, hl⟩ := h
  let ⟨_, hl'⟩ := h'
  ⟨_, hl.trans hl'⟩

theorem Step.reaches (h : Step env κ κ') : Reaches env κ κ' := ⟨_, .step h (.refl κ')⟩

theorem Step.to (h : Step env κ κ') (h' : Reaches env κ' κ'') : Reaches env κ κ'' :=
  h.reaches.trans h'

/-- A trap with a reason ends the frame that called. -/
theorem Step.abort {r : Running} {type : FuncType} {s : FrameState} {result : ExecutionResult}
    {kind : TrapKind} {m : Machine} {w : List Waiting} (h : aborts result = some kind) :
    Step env ⟨.answer result m, .frame r type s :: w⟩ ⟨.answer (.trap kind) m.leave, w⟩ := by
  have hstep : Step env ⟨.answer result m, .frame r type s :: w⟩ _ := .goOn
  rwa [Waiting.goOn, h] at hstep

theorem Step.resume {r : Running} {type : FuncType} {s : FrameState} {result : ExecutionResult}
    {m : Machine} {w : List Waiting} (h : aborts result = none) :
    Step env ⟨.answer result m, .frame r type s :: w⟩ ⟨.frame r (s.resume type result) m, w⟩ := by
  have hstep : Step env ⟨.answer result m, .frame r type s :: w⟩ _ := .goOn
  rwa [Waiting.goOn, h] at hstep

/-- Steps are determined, those over a run in a context of its own included. -/
theorem Step.unique (h : Step env κ κ') (h' : Step env κ κ'') : κ' = κ'' := by
  cases h with
  | refuse h | link h | enterHost h | enterFrame h | next h | done h | wait h =>
    cases h' <;> grind
  | @callFresh _ _ _ _ _ _ fuel _ h =>
    cases h' with
    | @callFresh _ _ _ _ _ _ fuel' _ h' =>
      have hmore := execute_le env (Nat.le_max_left fuel fuel') _ _ _ _ h
      have hmore' := execute_le env (Nat.le_max_right fuel fuel') _ _ _ _ h'
      cases hmore.symm.trans hmore'
      rfl
  | finish | fail | inspect | update | callSame | goOn =>
    cases h'
    rfl

/-- A run that has come to an end passes nothing else. -/
theorem Passes.mem (h : Passes env κ l κ') (hend : ∀ κ'', ¬ Step env κ' κ'') :
    ∀ {l'}, Passes env κ l' κ'' → κ'' ∈ l ++ [κ'] := by
  induction h with
  | refl κ =>
    intro l' h'
    cases h' with
    | refl => exact List.mem_singleton.mpr rfl
    | step hstep => exact absurd hstep (hend _)
  | step hstep _ ih =>
    intro l' h'
    cases h' with
    | refl => exact .head _
    | step hstep' hrest =>
      obtain rfl := hstep.unique hstep'
      exact .tail _ (ih hend hrest)

end

end Configuration

open WasmEngine.Configuration

/-- The steps lead to the answers that calls have with the given fuel. -/
def Followed (env : Environment) (fuel : Nat) : Prop :=
  ∀ {c : Call} {e : ExecutionResult × Machine} (w : List Waiting), c.answer env fuel = some e →
    Reaches env ⟨.call c, w⟩ ⟨.answer e.1 e.2, w⟩

section
variable {env : Environment} {fuel : Nat} (h : Followed env fuel)
include h

/-- The steps lead to the answer of a host program. -/
theorem host_followed {program : HostProgram} {e : ExecutionResult × Machine} :
    ∀ {m : Machine} (w : List Waiting), callHost (execute env fuel) program m = some e →
      Reaches env ⟨.host program m, w⟩ ⟨.answer e.1 e.2.leave, w⟩ := by
  unfold callHost
  induction program with
  | finish result =>
    intro m w he
    cases he
    exact Step.finish.reaches
  | fail failure =>
    intro m w he
    cases he
    exact Step.fail.reaches
  | inspect next ih =>
    intro m w he
    exact Step.inspect.to (ih m w he)
  | update change next ih =>
    intro m w he
    exact Step.update.to (ih w he)
  | call scope target arguments next ih =>
    intro m w he
    cases scope with
    | same =>
      rw [runHost] at he
      cases ha : execute env fuel target arguments m with
      | none =>
        rw [ha] at he
        cases he
      | some answer =>
        rw [ha] at he
        have hcall : Reaches env ⟨.call ⟨target, arguments, m⟩, .host next :: w⟩ _ := h _ ha
        exact Step.callSame.to ((hcall.trans Step.goOn.reaches).trans (ih answer.1 w he))
    | fresh =>
      rw [runHost] at he
      cases ha : execute env fuel target arguments (m.withContext {}) with
      | none =>
        rw [ha] at he
        cases he
      | some answer =>
        rw [ha] at he
        exact (Step.callFresh ha).to (ih answer.1 w he)

/-- So they do for a frame. -/
theorem FrameRun.followed {r : Running} {s : FrameState} {m : Machine} {l : List Stage}
    {o : Option (ExecutionResult × Machine)} {e : ExecutionResult × Machine}
    (hrun : FrameRun env.toObservers (execute env fuel) r s m l o) (w : List Waiting)
    (he : o = some e) : Reaches env ⟨.frame r s m, w⟩ ⟨.answer e.1 e.2.leave, w⟩ := by
  induction hrun with
  | cut => cases he
  | next hturn _ ih => exact (Step.next hturn).to (ih he)
  | done hturn =>
    cases he
    exact (Step.done hturn).reaches
  | unanswered hturn hcall => cases he
  | @aborted s s' m m' m'' target type kind hturn hcall hkind =>
    cases he
    have hanswer := h (c := ⟨target, _, m'⟩) (.frame r type s' :: w) hcall
    have hresult := aborts_eq_some.mpr ⟨rfl, hkind⟩
    exact (Step.wait hturn).to (hanswer.trans (Step.abort hresult).reaches)
  | @resumed s s' m m' m'' target type result l o hturn hcall hresult _ ih =>
    have hanswer := h (c := ⟨target, _, m'⟩) (.frame r type s' :: w) hcall
    have hresume := (Step.wait hturn).to (hanswer.trans (Step.resume hresult).reaches)
    exact hresume.trans (ih he)

end

theorem followed (env : Environment) (fuel : Nat) : Followed env fuel := by
  induction fuel with
  | zero => exact fun _ ha => by cases ha
  | succ fuel ih =>
    intro c e w ha
    rw [Call.answer_succ] at ha
    cases hp : c.plan env with
    | refuse kind =>
      rw [hp] at ha
      cases ha
      exact (Step.refuse hp).reaches
    | link target =>
      rw [hp] at ha
      obtain ⟨e', he', rfl⟩ := Option.map_eq_some_iff.mp ha
      exact (Step.link hp).to ((ih (.link :: w) he').trans Step.goOn.reaches)
    | host program =>
      rw [hp] at ha
      obtain ⟨e', he', rfl⟩ := Option.map_eq_some_iff.mp ha
      exact (Step.enterHost hp).to (host_followed ih w he')
    | frame r s =>
      rw [hp] at ha
      obtain ⟨e', he', rfl⟩ := Option.map_eq_some_iff.mp ha
      exact (Step.enterFrame hp).to ((frameRun ..).followed ih w he')

section
variable (env : Environment)

/-- What comes of a control, apart from what waits for it. -/
def Control.Answers : Control → ExecutionResult × Machine → Prop
  | .call c, e => ∃ fuel, c.answer env fuel = some e
  | .frame r s m, e => ∃ fuel e', runFrame env (execute env fuel) r fuel s m = some e' ∧
      e = (e'.1, e'.2.leave)
  | .host program m, e => ∃ fuel e', callHost (execute env fuel) program m = some e' ∧
      e = (e'.1, e'.2.leave)
  | .answer result m, e => e = (result, m)

/-- What comes of a control once all that waits for it has gone on. -/
def Control.AnswersThrough : List Waiting → Control → ExecutionResult × Machine → Prop
  | [], now, e => now.Answers env e
  | x :: w, now, e => ∃ e', now.Answers env e' ∧ AnswersThrough w (x.goOn e'.1 e'.2) e

end

section
variable {env : Environment} {now now' : Control} {w : List Waiting}
  {e : ExecutionResult × Machine}

theorem Control.AnswersThrough.mono (he : now'.AnswersThrough env w e)
    (h : ∀ e, now'.Answers env e → now.Answers env e) :
    now.AnswersThrough env w e := by
  cases w with
  | nil => exact h e he
  | cons x w =>
    obtain ⟨e', he', hrest⟩ := he
    exact ⟨e', h e' he', hrest⟩

/-- For a call and what waits for its answer, it is enough that what that does with the answer comes
of both. -/
theorem Control.AnswersThrough.pop {x : Waiting} (he : now'.AnswersThrough env (x :: w) e)
    (h : ∀ e' e, now'.Answers env e' → (x.goOn e'.1 e'.2).Answers env e →
      now.Answers env e) : now.AnswersThrough env w e := by
  obtain ⟨e', he', hrest⟩ := he
  exact hrest.mono fun e'' he'' => h e' e'' he' he''

/-- What comes of a configuration comes of the one before it. -/
theorem Configuration.Step.answers {κ κ' : Configuration} (h : Step env κ κ')
    (he : κ'.control.AnswersThrough env κ'.waiting e) :
    κ.control.AnswersThrough env κ.waiting e := by
  cases h with
  | refuse hp =>
    refine he.mono ?_
    rintro _ rfl
    refine ⟨1, ?_⟩
    rw [Call.answer_succ, hp]
  | link hp =>
    refine he.pop ?_
    rintro e' _ ⟨fuel, he'⟩ rfl
    refine ⟨fuel + 1, ?_⟩
    rw [Call.answer_succ, hp]
    exact Option.map_eq_some_iff.mpr ⟨e', he', rfl⟩
  | enterHost hp =>
    refine he.mono ?_
    rintro _ ⟨fuel, e', he', rfl⟩
    refine ⟨fuel + 1, ?_⟩
    rw [Call.answer_succ, hp]
    exact Option.map_eq_some_iff.mpr ⟨e', he', rfl⟩
  | enterFrame hp =>
    refine he.mono ?_
    rintro _ ⟨fuel, e', he', rfl⟩
    refine ⟨fuel + 1, ?_⟩
    rw [Call.answer_succ, hp]
    exact Option.map_eq_some_iff.mpr ⟨e', he', rfl⟩
  | next hturn =>
    refine he.mono ?_
    rintro _ ⟨fuel, e', he', rfl⟩
    exact ⟨fuel + 1, e', runFrame_next hturn he', rfl⟩
  | @done _ _ _ m' result _ hturn =>
    refine he.mono ?_
    rintro _ rfl
    refine ⟨1, (result, m'), ?_, rfl⟩
    rw [runFrame_succ, hturn]
  | wait hturn =>
    refine he.pop ?_
    rintro e' e'' ⟨fuel, hcall⟩ hrest
    unfold Waiting.goOn at hrest
    dsimp only at hrest
    cases hresult : aborts e'.1 with
    | some kind =>
      rw [hresult] at hrest
      cases hrest
      exact ⟨fuel + 1, (.trap kind, e'.2), runFrame_le (execute_le env (Nat.le_succ fuel)) _
        (Nat.le_refl _) (runFrame_abort hturn hcall hresult), rfl⟩
    | none =>
      rw [hresult] at hrest
      obtain ⟨fuel', e', he', rfl⟩ := hrest
      exact ⟨_, e', runFrame_resume hturn hcall hresult he', rfl⟩
  | @finish result m =>
    refine he.mono ?_
    rintro _ rfl
    exact ⟨0, (result, m), rfl, rfl⟩
  | fail =>
    refine he.mono ?_
    rintro _ rfl
    exact ⟨0, (.trap .host, _), rfl, rfl⟩
  | inspect => exact he.mono fun _ => id
  | update => exact he.mono fun _ => id
  | callSame =>
    refine he.pop ?_
    rintro e' _ ⟨fuel, hcall⟩ ⟨fuel', e'', he'', rfl⟩
    exact ⟨_, e'', callHost_same hcall he'', rfl⟩
  | callFresh hcall =>
    refine he.mono ?_
    rintro _ ⟨fuel', e'', he'', rfl⟩
    exact ⟨_, e'', callHost_fresh hcall he'', rfl⟩
  | goOn => exact ⟨_, rfl, he⟩

/-- The steps from a call lead to an answer exactly if the call has it. -/
theorem answer_iff_reaches {c : Call} {result : ExecutionResult} {n : Machine} :
    (∃ fuel, c.answer env fuel = some (result, n)) ↔
      Reaches env c.start ⟨.answer result n, []⟩ := by
  constructor
  · rintro ⟨fuel, ha⟩
    exact followed env fuel [] ha
  · rintro ⟨l, h⟩
    have hall : ∀ {κ l}, Passes env κ l ⟨.answer result n, []⟩ →
        κ.control.AnswersThrough env κ.waiting (result, n) := by
      intro κ l h
      generalize hend : (⟨.answer result n, []⟩ : Configuration) = κ' at h
      induction h with
      | refl =>
        subst hend
        rfl
      | step hstep _ ih => exact hstep.answers (ih hend)
    exact hall h

end

end WasmEngine
