import Mathlib.Data.List.Chain
import WasmEngine.Proofs.Execution.Observation

/-!
# The frames of a run

The visits of a run belong to frames, which calls nest into each other. Each frame has a path of its
own, and the visits at one path, taken out of the run in order, are the states of one frame from its
entry on: every turn begins where the one before it ended, a nested call being part of the turn that
made it.
-/
namespace WasmEngine
set_option autoImplicit false

namespace Visit

/-- The frame has just been entered. -/
def Entered (v : Visit) : Prop := v.state.pc = 0 ∧ v.state.previous = entryBlock

/-- The second visit is the next one of the same frame. -/
inductive Precedes (obs : Observers) (v v' : Visit) : Prop
  | next (hf : v'.function = v.function) (hr : v'.running = v.running)
      (hturn : turn obs v.running v.state v.machine = .next v'.state v'.machine)
  | call {target : FunctionRef} {type : FuncType} {s : FrameState} {m : Machine}
      {result : ExecutionResult} (hf : v'.function = v.function) (hr : v'.running = v.running)
      (hturn : turn obs v.running v.state v.machine = .wait target type s m)
      (hs : v'.state = s.resume type result)

theorem Precedes.function_eq {obs : Observers} {v v' : Visit} (h : v.Precedes obs v') :
    v'.function = v.function := by
  cases h with
  | next hf hr _ => exact hf
  | call hf hr _ _ => exact hf

theorem Precedes.running_eq {obs : Observers} {v v' : Visit} (h : v.Precedes obs v') :
    v'.running = v.running := by
  cases h with
  | next hf hr _ => exact hr
  | call hf hr _ _ => exact hr

end Visit

def visitsAt (q : FramePath) (l : List Visit) : List Visit := l.filter (·.path = q)

@[simp] theorem visitsAt_append (q : FramePath) (l l' : List Visit) :
    visitsAt q (l ++ l') = visitsAt q l ++ visitsAt q l' :=
  List.filter_append ..

theorem visitsAt_eq_nil {q : FramePath} {l : List Visit} (h : ∀ v ∈ l, v.path ≠ q) :
    visitsAt q l = [] := by
  rw [visitsAt, List.filter_eq_nil_iff]
  intro v hv
  simpa using h v hv

/-- The visits are the states of one frame from its entry on. -/
structure FrameTrace (obs : Observers) (l : List Visit) : Prop where
  entry : ∀ v ∈ l.head?, v.Entered
  chain : l.IsChain (Visit.Precedes obs)

theorem frameTrace_nil (obs : Observers) : FrameTrace obs [] :=
  ⟨fun _ h => (by cases h), .nil⟩

/-- All visits have paths of a kind, and those at one path are the states of one frame. -/
structure Traced (obs : Observers) (P : FramePath → Prop) (l : List Visit) : Prop where
  within : ∀ v ∈ l, P v.path
  frames : ∀ q, FrameTrace obs (visitsAt q l)

namespace Traced

variable {obs : Observers} {P P' Q : FramePath → Prop} {l l' : List Visit}

theorem nil : Traced obs P [] := ⟨fun _ h => (by cases h), fun _ => frameTrace_nil obs⟩

theorem mono (h : Traced obs P l) (hP : ∀ q, P q → Q q) : Traced obs Q l :=
  ⟨fun v hv => hP _ (h.within v hv), h.frames⟩

/-- Two runs whose paths differ in kind share no frame. -/
theorem append (h : Traced obs P l) (h' : Traced obs P' l') (hd : ∀ q, P q → ¬ P' q)
    (hP : ∀ q, P q → Q q) (hP' : ∀ q, P' q → Q q) : Traced obs Q (l ++ l') where
  within v hv := by
    rcases List.mem_append.mp hv with hv | hv
    · exact hP _ (h.within v hv)
    · exact hP' _ (h'.within v hv)
  frames q := by
    rw [visitsAt_append]
    by_cases hq : P q
    · have hnil : visitsAt q l' = [] :=
        visitsAt_eq_nil fun v hv he => hd q hq (he ▸ h'.within v hv)
      rw [hnil, List.append_nil]
      exact h.frames q
    · have hnil : visitsAt q l = [] := visitsAt_eq_nil fun v hv he => hq (he ▸ h.within v hv)
      rw [hnil, List.nil_append]
      exact h'.frames q

end Traced

/-- The paths beneath those of the calls numbered from `count` on that are made at a path. -/
def Beneath (count : Nat) (path q : FramePath) : Prop := ∃ k, count ≤ k ∧ (k :: path) <:+ q

section
variable {path q : FramePath} {count k : Nat}

theorem suffix_head_eq {k' : Nat} (h : (k :: path) <:+ q) (h' : (k' :: path) <:+ q) : k = k' := by
  have hs := List.suffix_of_suffix_length_le h h' (Nat.le_refl _)
  exact (List.cons.inj (hs.eq_of_length rfl)).1

theorem not_beneath_of_suffix (h : (count :: path) <:+ q) : ¬ Beneath (count + 1) path q := by
  rintro ⟨k, hk, hs⟩
  have := suffix_head_eq h hs
  omega

theorem Beneath.suffix (h : Beneath count path q) : path <:+ q := by
  obtain ⟨k, -, hs⟩ := h
  exact (List.suffix_cons k path).trans hs

theorem Beneath.mono {count' : Nat} (h : Beneath count' path q) (hc : count ≤ count') :
    Beneath count path q := by
  obtain ⟨k, hk, hs⟩ := h
  exact ⟨k, Nat.le_trans hc hk, hs⟩

end

/-- Calls only add visits beneath their path, and their frames are traced. -/
def Observe.Traced (obs : Observers) (invoke : Observe) : Prop :=
  ∀ path target arguments m,
    WasmEngine.Traced obs (path <:+ ·) (invoke path target arguments m).visits

section
variable {invoke : Observe} {obs : Observers}

theorem traced_andThen {α β : Type} {P R Q : FramePath → Prop} {o : Observed α}
    {f : α → Machine → Observed β} (ho : Traced obs P o.visits)
    (hf : ∀ a m, Traced obs R (f a m).visits) (hd : ∀ q, P q → ¬ R q) (hP : ∀ q, P q → Q q)
    (hR : ∀ q, R q → Q q) : Traced obs Q (o.andThen f).visits := by
  obtain ⟨visits, result, m⟩ := o
  cases result with
  | none => exact ho.mono hP
  | some a => exact ho.append (hf a m) hd hP hR

theorem observeHost_traced (hi : Observe.Traced obs invoke) (path : FramePath)
    (program : HostProgram) :
    ∀ (count : Nat) (m : Machine),
      Traced obs (Beneath count path) (observeHost invoke path program count m).visits := by
  induction program with
  | finish result => exact fun _ _ => .nil
  | fail failure => exact fun _ _ => .nil
  | inspect next ih => exact fun count m => ih m count m
  | update change next ih => exact fun count m => ih count (change m)
  | call scope target arguments next ih =>
    intro count m
    exact traced_andThen (hi (count :: path) target arguments _)
      (fun result m' => ih result (count + 1) _) (fun q hq => not_beneath_of_suffix hq)
      (fun q hq => ⟨count, Nat.le_refl _, hq⟩) fun q hq => hq.mono (Nat.le_succ _)

theorem observeCallHost_traced (hi : Observe.Traced obs invoke) (path : FramePath)
    (program : HostProgram) (m : Machine) :
    Traced obs (path <:+ ·) (observeCallHost invoke path program m).visits := by
  have hhost := observeHost_traced hi path program 0 m
  refine traced_andThen (R := fun _ => False) hhost (fun answer m => ?_) (fun _ _ h => h)
    (fun q hq => hq.suffix) fun _ h => h.elim
  cases answer with
  | ok result => exact .nil
  | error failure => exact .nil

/-- A frame that has taken `count` turns: its visits from the present state on, and the frames of
the calls that it still makes. -/
structure FrameRest (obs : Observers) (path : FramePath) (first : Visit) (count : Nat)
    (l : List Visit) : Prop where
  within : ∀ v ∈ l, v.path = path ∨ Beneath count path v.path
  head : ∀ v ∈ (visitsAt path l).head?, v = first
  chain : (visitsAt path l).IsChain (Visit.Precedes obs)
  nested : ∀ q, q ≠ path → FrameTrace obs (visitsAt q l)

theorem frameRest_nil (obs : Observers) (path : FramePath) (first : Visit) (count : Nat) :
    FrameRest obs path first count [] :=
  ⟨fun _ h => (by cases h), fun _ h => (by cases h), .nil, fun _ _ => frameTrace_nil obs⟩

theorem FrameRest.cons {path : FramePath} {first next : Visit} {count : Nat} {l : List Visit}
    (hp : first.path = path) (hnext : first.Precedes obs next)
    (h : FrameRest obs path next count l) : FrameRest obs path first count (first :: l) where
  within v hv := by
    rcases List.mem_cons.mp hv with rfl | hv
    · exact .inl hp
    · exact h.within v hv
  head v hv := by
    rw [visitsAt, List.filter_cons_of_pos (by simpa using hp)] at hv
    exact (Option.some.inj hv).symm
  chain := by
    rw [visitsAt, List.filter_cons_of_pos (by simpa using hp)]
    refine List.IsChain.cons h.chain fun v hv => ?_
    rw [h.head v hv]
    exact hnext
  nested q hq := by
    rw [visitsAt, List.filter_cons_of_neg (by simpa [hp] using hq.symm)]
    exact h.nested q hq

theorem FrameRest.mono {path : FramePath} {first : Visit} {count : Nat} {l : List Visit}
    (h : FrameRest obs path first (count + 1) l) : FrameRest obs path first count l :=
  ⟨fun v hv => (h.within v hv).imp_right (·.mono (Nat.le_succ _)), h.head, h.chain, h.nested⟩

theorem FrameRest.last {path : FramePath} {first : Visit} {count : Nat} {l : List Visit}
    (hp : first.path = path) (h : Traced obs ((count :: path) <:+ ·) l) :
    FrameRest obs path first count (first :: l) := by
  have hnil : visitsAt path l = [] := visitsAt_eq_nil fun v hv he => by
    have hs := (h.within v hv).length_le
    rw [he, List.length_cons] at hs
    omega
  have hown : visitsAt path (first :: l) = [first] := by
    rw [visitsAt, List.filter_cons_of_pos (by simpa using hp)]
    exact congrArg (first :: ·) hnil
  refine ⟨fun v hv => ?_, fun v hv => ?_, ?_, fun q hq => ?_⟩
  · rcases List.mem_cons.mp hv with rfl | hv
    · exact .inl hp
    · exact .inr ⟨count, Nat.le_refl _, h.within v hv⟩
  · rw [hown] at hv
    exact (Option.some.inj hv).symm
  · rw [hown]
    exact .singleton _
  · rw [visitsAt, List.filter_cons_of_neg (by simpa [hp] using hq.symm)]
    exact h.frames q

/-- The frames of a nested call come before the rest of the frame that made it. -/
theorem FrameRest.nest {path : FramePath} {next : Visit} {count : Nat} {l l' : List Visit}
    (h : Traced obs ((count :: path) <:+ ·) l) (h' : FrameRest obs path next (count + 1) l') :
    FrameRest obs path next count (l ++ l') := by
  have hnil : visitsAt path l = [] := visitsAt_eq_nil fun v hv he => by
    have hs := (h.within v hv).length_le
    rw [he, List.length_cons] at hs
    omega
  refine ⟨fun v hv => ?_, ?_, ?_, fun q hq => ?_⟩
  · rcases List.mem_append.mp hv with hv | hv
    · exact .inr ⟨count, Nat.le_refl _, h.within v hv⟩
    · exact (h'.within v hv).imp_right (·.mono (Nat.le_succ _))
  · rw [visitsAt_append, hnil, List.nil_append]
    exact h'.head
  · rw [visitsAt_append, hnil, List.nil_append]
    exact h'.chain
  · rw [visitsAt_append]
    by_cases hc : (count :: path) <:+ q
    · have hempty : visitsAt q l' = [] := visitsAt_eq_nil fun v hv he => by
        rcases h'.within v hv with hp | hb
        · exact hq (he.symm.trans hp)
        · exact not_beneath_of_suffix hc (he ▸ hb)
      rw [hempty, List.append_nil]
      exact h.frames q
    · have hempty : visitsAt q l = [] :=
        visitsAt_eq_nil fun v hv he => hc (he ▸ h.within v hv)
      rw [hempty, List.nil_append]
      exact h'.nested q hq

theorem observeFrame_rest (env : Environment) (hi : Observe.Traced env.toObservers invoke)
    (path : FramePath) (function : FunctionRef) (r : Running) (fuel : Nat) :
    ∀ (count : Nat) (s : FrameState) (m : Machine),
      FrameRest env.toObservers path ⟨path, function, r, s, m⟩ count
        (observeFrame env invoke path function r fuel count s m).visits := by
  induction fuel with
  | zero => exact fun count s m => frameRest_nil ..
  | succ fuel ih =>
    intro count s m
    rw [observeFrame]
    cases hturn : turn env.toObservers r s m with
    | next s' m' =>
      have hnext : Visit.Precedes env.toObservers ⟨path, function, r, s, m⟩
          ⟨path, function, r, s', m'⟩ := .next rfl rfl hturn
      exact .cons rfl hnext (ih (count + 1) s' m').mono
    | done result m' => exact .last rfl .nil
    | wait target type s' m' =>
      have hcall := hi (count :: path) target (s'.frame.topmost type.inputs.length) m'
      dsimp only
      generalize invoke (count :: path) target (s'.frame.topmost type.inputs.length) m' = o at hcall ⊢
      obtain ⟨visits, result, m''⟩ := o
      cases result with
      | none => exact .last rfl hcall
      | some result =>
        dsimp only [Observed.andThen]
        cases aborts result with
        | some kind =>
          refine .last rfl ?_
          show Traced _ _ (visits ++ [])
          rwa [List.append_nil]
        | none =>
          have hnext : Visit.Precedes env.toObservers ⟨path, function, r, s, m⟩
              ⟨path, function, r, s'.resume type result, m''⟩ := .call rfl rfl hturn rfl
          have hrest := FrameRest.nest hcall (ih (count + 1) (s'.resume type result) m'')
          exact .cons rfl hnext hrest

theorem observeBody_traced (env : Environment) (hi : Observe.Traced env.toObservers invoke)
    (fuel : Nat) (path : FramePath) (target : FunctionRef) (arguments : List Cell) (m : Machine) :
    Traced env.toObservers (path <:+ ·)
      (observeBody env invoke fuel path target arguments m).visits := by
  unfold observeBody
  rcases m.store.function? target with _ | ⟨type, name, index, (next | ⟨id, state⟩) | ⟨code, instrumented⟩⟩
  · exact .nil
  · exact (hi (0 :: path) next arguments m).mono fun q hq => (List.suffix_cons 0 path).trans hq
  · exact observeCallHost_traced hi path _ m
  · have h := observeFrame_rest env hi path target
      (.ofFunction target.inst ⟨type, name, index, .defined code instrumented⟩ code instrumented) fuel 0
      ⟨0, .enter arguments code.locals.length code.maxHeight, entryBlock⟩ m
    refine ⟨fun v hv => ?_, fun q => ?_⟩
    · rcases h.within v hv with hp | hb
      · exact hp ▸ List.suffix_refl path
      · exact hb.suffix
    · by_cases hq : q = path
      · subst hq
        refine ⟨fun v hv => ?_, h.chain⟩
        rw [h.head v hv]
        exact ⟨rfl, rfl⟩
      · exact h.nested q hq

/-- The visits of a run at any one path are the states of one frame, from its entry on. -/
theorem observe_traced (env : Environment) (fuel : Nat) :
    Observe.Traced env.toObservers (observe env fuel) := by
  induction fuel with
  | zero => exact fun _ _ _ _ => .nil
  | succ fuel ih =>
    intro path target arguments m
    have hbody := observeBody_traced env ih fuel path target arguments m.enter
    unfold observe
    split
    · exact .nil
    split
    · exact .nil
    generalize observeBody env (observe env fuel) fuel path target arguments m.enter = o at hbody ⊢
    obtain ⟨visits, result, m'⟩ := o
    cases result with
    | none => exact hbody
    | some result =>
      show Traced _ _ (visits ++ [])
      rwa [List.append_nil]

end

end WasmEngine
