import WasmEngine.Embedding
import WasmEngine.Proofs.Execution.Observation
import WasmEngine.Proofs.Typing.Assertions

/-!
# Type soundness of frames

In every state of every frame of a run the operands are those that the typing of the body says.
A frame is followed turn by turn; what a turn keeps carries over to whole runs, to nested calls in
other instances and to calls that host functions make.
-/
namespace WasmEngine
set_option autoImplicit false

/-- The scope of the body that a frame runs, for a function of the type. -/
def Running.scope (r : Running) (s : Store) (type : FuncType) : Scope :=
  (s.outline r.inst).scope type r.code

/-- The frame of a function of the type runs a typed body. -/
structure Running.Sound (r : Running) (function : FunctionRef) (type : FuncType) (s : Store) :
    Prop where
  inst : r.inst = function.inst
  type_eq : s.functionType? function = some type
  outputs : type.outputs.length ≤ 1
  returns : r.returns = !type.outputs.isEmpty
  faithful : r.Faithful
  typable : ∃ τ, r.code.Typed (r.scope s type) τ

/-- Whatever assignment types the body, the frame has the types assigned to its place. -/
def FrameState.Typed (st : FrameState) (r : Running) (Γ : Scope) : Prop :=
  ∀ τ, r.code.Typed Γ τ → st.frame.TypedAt Γ r.code τ st.pc

section
variable {serves : Nat → FuncType → Prop} {r : Running} {function : FunctionRef} {type : FuncType}
  {s s' : Store}

theorem Running.Sound.scope_eq (h : r.Sound function type s) (he : s.Extends s') :
    r.scope s' type = r.scope s type := by
  obtain ⟨f, hf, -⟩ := Option.map_eq_some_iff.mp h.type_eq
  have hlt : r.inst < s.instances.size := by
    rw [h.inst]
    exact Store.inst_lt hf
  rw [Running.scope, Running.scope, he.outline r.inst hlt]

theorem Running.Sound.mono (h : r.Sound function type s) (he : s.Extends s') :
    r.Sound function type s' where
  inst := h.inst
  type_eq := he.functionType?_eq h.type_eq
  outputs := h.outputs
  returns := h.returns
  faithful := h.faithful
  typable := by
    rw [h.scope_eq he]
    exact h.typable

theorem instruction_of_typed {Γ : Scope} {τ : Assignment} (hfaithful : r.Faithful)
    (ht : r.code.Typed Γ τ) {pc : Nat} {types : List ValType} (hτ : τ pc = some types) :
    r.code.instructions[pc]? = some (r.instruction pc) := by
  have hlt : pc < r.code.instructions.size := ht.inside pc types hτ
  rw [hfaithful pc, Array.getD_eq_getD_getElem?, Array.getElem?_eq_getElem hlt, Option.getD_some]

/-- The result of a function that is left with its declared result on top. -/
theorem result_fits (hr : r.Sound function type s) {f : Frame} {types : List ValType}
    (hf : f.HasTypes r.code.maxHeight (r.scope s type).locals types)
    (hp : type.outputs <+: types) : (r.result f).Fits type.outputs := by
  have ho := hr.outputs
  rw [Running.result, hr.returns]
  rcases hout : type.outputs with _ | ⟨t, _ | ⟨u, rest⟩⟩
  · rfl
  · rw [hout] at hp
    obtain ⟨rest, rfl⟩ := hp
    exact ⟨t, rfl, hf.peek⟩
  · rw [hout] at ho
    simp at ho

/-- The frame after a call: the arguments are replaced by a result of the callee's type. -/
theorem afterCall_typedAt {Γ : Scope} {code : Code} {τ : Assignment} (ht : code.Typed Γ τ)
    {f : Frame} {rest : List ValType} {next : Nat} {result : ExecutionResult}
    (hf : f.HasTypes code.maxHeight Γ.locals (type.inputs.reverse ++ rest))
    (hn : τ next = some (type.outputs.reverse ++ rest)) (hr : result.Fits type.outputs)
    (ha : aborts result = none) : (afterCall type f result).TypedAt Γ code τ next := by
  have hd : (f.drop type.inputs.length).HasTypes code.maxHeight Γ.locals rest := by
    rw [← List.length_reverse]
    exact hf.drop
  cases result with
  | void =>
    rw [show type.outputs = [] from hr] at hn
    exact ⟨rest, hn, hd⟩
  | value c =>
    obtain ⟨t, ho, hc⟩ := hr
    rw [ho] at hn
    exact push_typedAt ht hd hn hc
  | trap kind =>
    have hk : kind ≠ .none := hr
    cases kind <;> first | exact absurd rfl hk | cases ha

end

/-- A turn of a typed frame of a function that gives results of the type `outputs`. -/
inductive Turn.Conforms (serves : Nat → FuncType → Prop) (r : Running) (Γ : Scope)
    (outputs : List ValType) (s : Store) : Turn → Prop
  | next {st : FrameState} {m : Machine} (hs : s.Evolves serves m.store) (h : st.Typed r Γ) :
      Conforms serves r Γ outputs s (.next st m)
  | done {result : ExecutionResult} {m : Machine} (hs : s.Evolves serves m.store)
      (h : result.Fits outputs) : Conforms serves r Γ outputs s (.done result m)
  | wait {target : FunctionRef} {type : FuncType} {st : FrameState} {m : Machine}
      (hs : s.Evolves serves m.store) (ht : m.store.functionType? target = some type)
      (ha : Fits (st.frame.topmost type.inputs.length) type.inputs)
      (h : ∀ result, result.Fits type.outputs → aborts result = none →
        (st.resume type result).Typed r Γ) :
      Conforms serves r Γ outputs s (.wait target type st m)

section
variable {serves : Nat → FuncType → Prop} {r : Running} {function : FunctionRef} {type : FuncType}

/-- What one turn keeps: the store stays sound, and the frame goes on with the types assigned to
where it goes. -/
theorem turn_conforms (obs : Observers) {st : FrameState} {m : Machine}
    (hs : m.store.Sound serves) (hr : r.Sound function type m.store)
    (ht : st.Typed r (r.scope m.store type)) :
    (turn obs r st m).Conforms serves r (r.scope m.store type) type.outputs m.store := by
  have hticks : TrapKind.outOfTicks ≠ .none := by decide
  unfold turn
  rcases m.context.charge with ⟨_ | _, context⟩
  · exact .done (.refl hs) hticks
  dsimp only
  have hstore : (reportAt obs r st (m.withContext context)).2.store = m.store :=
    reportAt_store obs r st (m.withContext context)
  -- The outcome is the same one for every assignment.
  have hconf : ∀ τ, r.code.Typed (r.scope m.store type) τ →
      (step obs r.inst r.code (r.instruction st.pc) (st.pc + 1) st.frame
        (reportAt obs r st (m.withContext context)).2).Conforms serves (r.scope m.store type)
          r.code τ (st.pc + 1) m.store := by
    intro τ hτ
    obtain ⟨types, hpc, hf⟩ := ht τ hτ
    obtain ⟨l, hc, hl⟩ := hτ.flow st.pc types _ hpc (instruction_of_typed hr.faithful hτ hpc)
    rw [← hstore] at hs hf hc hτ ⊢
    exact step_conforms obs hs rfl hτ hf hc hl
  obtain ⟨τ₀, hτ₀⟩ := hr.typable
  generalize step obs r.inst r.code (r.instruction st.pc) (st.pc + 1) st.frame
    (reportAt obs r st (m.withContext context)).2 = o at hconf ⊢
  cases hconf τ₀ hτ₀ with
  | goto hm h =>
    refine .next hm fun τ hτ => ?_
    cases hconf τ hτ with
    | goto _ h => exact h
  | leave hm h ho => exact .done hm (result_fits hr h ho)
  | trap hm hk => exact .done hm hk
  | call hm htarget h hn =>
    refine .wait hm htarget h.topmost fun result hresult ha τ hτ => ?_
    cases hconf τ hτ with
    | call _ _ h hn => exact afterCall_typedAt hτ h hn hresult ha

end

/-- A state of a run in which the frame of a function of the type is typed. -/
structure Visit.Sound (serves : Nat → FuncType → Prop) (s : Store) (v : Visit) : Prop where
  evolves : s.Evolves serves v.machine.store
  typed : ∃ type, v.running.Sound v.function type v.machine.store ∧
    v.state.Typed v.running (v.running.scope v.machine.store type)

/-- A computation that begins in the store `s'` of a run from `s`, passes typed states only, and
ends, if it does, in a way that is allowed. -/
structure Observed.Sound {α : Type} (serves : Nat → FuncType → Prop) (s : Store) (allowed : α → Prop)
    (s' : Store) (o : Observed α) : Prop where
  visits : ∀ v ∈ o.visits, v.Sound serves s
  machine : s'.Evolves serves o.machine.store
  result : ∀ a, o.result = some a → allowed a

/-- Calls of functions at their types give results of their types. -/
def Observe.Sound (serves : Nat → FuncType → Prop) (s : Store) (invoke : Observe) : Prop :=
  ∀ path target arguments m type, s.Evolves serves m.store →
    m.store.functionType? target = some type → Fits arguments type.inputs →
    (invoke path target arguments m).Sound serves s (ExecutionResult.Fits type.outputs) m.store

section
variable {serves : Nat → FuncType → Prop} {s s' : Store}

namespace Observed

variable {α β : Type} {allowed : α → Prop} {allowed' : β → Prop}

theorem sound_ended {a : α} {m : Machine} (hm : s'.Evolves serves m.store) (ha : allowed a) :
    (ended a m).Sound serves s allowed s' where
  visits _ hv := by cases hv
  machine := hm
  result b hb := Option.some.inj hb ▸ ha

theorem Sound.mono {s'' : Store} {o : Observed α} (ho : o.Sound serves s allowed s'')
    (hs : s'.Evolves serves s'') : o.Sound serves s allowed s' :=
  ⟨ho.visits, hs.trans ho.machine, ho.result⟩

theorem Sound.andThen {o : Observed α} {f : α → Machine → Observed β}
    (ho : o.Sound serves s allowed s')
    (hf : ∀ a m, allowed a → s'.Evolves serves m.store →
      (f a m).Sound serves s allowed' m.store) : (o.andThen f).Sound serves s allowed' s' := by
  obtain ⟨visits, result, m⟩ := o
  cases result with
  | none => exact ⟨ho.visits, ho.machine, fun _ h => by cases h⟩
  | some a =>
    have hfa := hf a m (ho.result a rfl) ho.machine
    refine ⟨fun v hv => ?_, ho.machine.trans hfa.machine, hfa.result⟩
    rcases List.mem_append.mp hv with hv | hv
    · exact ho.visits v hv
    · exact hfa.visits v hv

end Observed

variable {invoke : Observe}

/-- The result of a host program, which may also fail. -/
def answerFits (outputs : List ValType) : Except Failure ExecutionResult → Prop
  | .ok result => result.Fits outputs
  | .error _ => True

theorem observeHost_sound (hi : Observe.Sound serves s invoke) (path : FramePath)
    (outputs : List ValType) (program : HostProgram) :
    ∀ (count : Nat) (m : Machine), s.Evolves serves m.store →
      program.Behaves serves outputs m →
      (observeHost invoke path program count m).Sound serves s (answerFits outputs) m.store := by
  induction program with
  | finish result => exact fun _ m hm hp => Observed.sound_ended (.refl hm.sound) hp
  | fail failure => exact fun _ m hm _ => Observed.sound_ended (.refl hm.sound) trivial
  | inspect next ih => exact fun count m hm hp => ih m count m hm hp
  | update change next ih =>
    intro count m hm hp
    exact (ih count (change m) (hm.trans hp.1) hp.2).mono hp.1
  | call scope target arguments next ih =>
    intro count m hm hp
    obtain ⟨type, htype, hargs, hnext⟩ := hp
    have hcall := hi (count :: path) target arguments (scope.enter m) type
      (by rwa [CallScope.enter_store]) (by rwa [CallScope.enter_store]) hargs
    rw [CallScope.enter_store] at hcall
    refine hcall.andThen fun result m' hresult hm' => ?_
    have hstore := CallScope.leave_store scope m.context m'
    have hleft := ih result (count + 1) (scope.leave m.context m')
      (by rw [hstore]; exact hm.trans hm') (hnext result _ (by rwa [hstore]) hresult)
    rwa [hstore] at hleft

theorem observeCallHost_sound (hi : Observe.Sound serves s invoke) (path : FramePath)
    {outputs : List ValType} {program : HostProgram} {m : Machine} (hm : s.Evolves serves m.store)
    (hp : program.Behaves serves outputs m) :
    (observeCallHost invoke path program m).Sound serves s (ExecutionResult.Fits outputs)
      m.store := by
  have hhost : TrapKind.host ≠ .none := by decide
  refine (observeHost_sound hi path outputs program 0 m hm hp).andThen fun answer m' ha hm' => ?_
  cases answer with
  | ok result => exact Observed.sound_ended (.refl hm'.sound) ha
  | error failure => exact Observed.sound_ended (.refl hm'.sound) hhost

/-- What a whole frame keeps, from what one turn keeps. -/
theorem observeFrame_sound (env : Environment) (hi : Observe.Sound serves s invoke)
    (path : FramePath) {function : FunctionRef} {r : Running} {type : FuncType} (fuel : Nat) :
    ∀ (count : Nat) (st : FrameState) (m : Machine), s.Evolves serves m.store →
      r.Sound function type m.store → st.Typed r (r.scope m.store type) →
      (observeFrame env invoke path function r fuel count st m).Sound serves s
        (ExecutionResult.Fits type.outputs) m.store := by
  induction fuel with
  | zero =>
    intro count st m hm _ _
    exact ⟨fun v hv => (by cases hv), .refl hm.sound, fun a ha => by cases ha⟩
  | succ fuel ih =>
    intro count st m hm hr ht
    have hturn := turn_conforms env.toObservers hm.sound hr ht
    -- The first visit is the present state; the turn decides what follows.
    suffices hrest : ∀ o : Observed ExecutionResult,
        o.Sound serves s (ExecutionResult.Fits type.outputs) m.store →
        (Observed.after [⟨path, function, r, st, m⟩] o).Sound serves s
          (ExecutionResult.Fits type.outputs) m.store by
      rw [observeFrame]
      apply hrest
      generalize turn env.toObservers r st m = t at hturn ⊢
      cases hturn with
      | @next st' m' hs' h =>
        rw [← hr.scope_eq hs'.toExtends] at h
        exact (ih (count + 1) st' m' (hm.trans hs') (hr.mono hs'.toExtends) h).mono hs'
      | done hs' h => exact Observed.sound_ended hs' h
      | @wait target ctype st' m' hs' htarget hargs h =>
        have hcall := hi (count :: path) target (st'.frame.topmost ctype.inputs.length) m' ctype
          (hm.trans hs') htarget hargs
        refine Observed.Sound.mono (hcall.andThen fun result m'' hresult hm'' => ?_) hs'
        have hall := hs'.trans hm''
        cases ha : aborts result with
        | some kind =>
          refine Observed.sound_ended (.refl hm''.sound) ?_
          rintro rfl
          cases result with
          | trap k => cases k <;> cases ha
          | void => cases ha
          | value c => cases ha
        | none =>
          have hst := h result hresult ha
          rw [← hr.scope_eq hall.toExtends] at hst
          exact ih (count + 1) _ m'' (hm.trans hall) (hr.mono hall.toExtends) hst
    intro o ho
    refine ⟨fun v hv => ?_, ho.machine, ho.result⟩
    rcases List.mem_append.mp hv with hv | hv
    · obtain rfl := List.mem_singleton.mp hv
      exact ⟨hm, type, hr, ht⟩
    · exact ho.visits v hv

/-- A function of a sound store is entered in a typed frame. -/
theorem enter_sound {m : Machine} (hs : m.store.Sound serves) {target : FunctionRef}
    {f : FunctionInstance} (hf : m.store.function? target = some f) {code : Code}
    {instrumented : Option InstrumentedCode} (hb : f.body = .defined code instrumented)
    {arguments : List Cell} (ha : Fits arguments f.type.inputs) :
    (Running.ofFunction target.inst f code instrumented).Sound target f.type m.store ∧
      FrameState.Typed ⟨0, .enter arguments code.locals.length code.maxHeight, entryBlock⟩
        (.ofFunction target.inst f code instrumented)
        ((Running.ofFunction target.inst f code instrumented).scope m.store f.type) := by
  have hfs := hs.functions target f hf
  obtain ⟨htyped, hfaithful⟩ := hfs.typed code instrumented hb
  refine ⟨⟨rfl, by rw [Store.functionType?, hf]; rfl, hfs.outputs, rfl, hfaithful, htyped⟩, ?_⟩
  exact fun τ hτ => ⟨[], hτ.entry, .enter ha code.locals code.maxHeight⟩

theorem observeBody_sound {env : Environment} (hb : env.Behaves serves s)
    (hi : Observe.Sound serves s invoke) (fuel : Nat) (path : FramePath) (target : FunctionRef)
    (arguments : List Cell) (m : Machine) (type : FuncType) (hm : s.Evolves serves m.store)
    (ht : m.store.functionType? target = some type) (ha : Fits arguments type.inputs) :
    (observeBody env invoke fuel path target arguments m).Sound serves s
      (ExecutionResult.Fits type.outputs) m.store := by
  obtain ⟨f, hf, rfl⟩ := Option.map_eq_some_iff.mp ht
  have hfs := hm.sound.functions target f hf
  unfold observeBody
  rw [hf]
  dsimp only
  cases hbody : f.body with
  | imported callee =>
    cases callee with
    | guest next => exact hi _ next arguments m f.type hm (hfs.guest next hbody) ha
    | host id state =>
      exact observeCallHost_sound hi path hm (hb id f.type _ m (hfs.host id state hbody) hm ht ha)
  | defined code instrumented =>
    obtain ⟨hr, hst⟩ := enter_sound hm.sound hf hbody ha
    exact observeFrame_sound env hi path fuel 0 _ m hm hr hst

/-- What a whole run keeps, by induction on the nesting of calls. -/
theorem observe_sound {env : Environment} (hb : env.Behaves serves s) (fuel : Nat) :
    Observe.Sound serves s (observe env fuel) := by
  have hdepth : TrapKind.callStackExhausted ≠ .none := by decide
  have hflag : TrapKind.interrupted ≠ .none := by decide
  induction fuel with
  | zero =>
    intro path target arguments m type hm _ _
    exact ⟨fun v hv => (by cases hv), .refl hm.sound, fun a ha => by cases ha⟩
  | succ fuel ih =>
    intro path target arguments m type hm ht ha
    unfold observe
    split
    · exact Observed.sound_ended (.refl hm.sound) hdepth
    split
    · exact Observed.sound_ended (.refl hm.sound) hflag
    refine Observed.Sound.andThen
      (observeBody_sound hb ih fuel path target arguments m.enter type hm ht ha) ?_
    exact fun result m' hresult hm' => Observed.sound_ended (.refl hm'.sound) hresult

theorem execute_sound {env : Environment} (hb : env.Behaves serves s) {fuel : Nat}
    {target : FunctionRef} {type : FuncType} {arguments : List Cell} {m m' : Machine}
    {result : ExecutionResult} (hm : s.Evolves serves m.store)
    (ht : m.store.functionType? target = some type) (ha : Fits arguments type.inputs)
    (he : execute env fuel target arguments m = some (result, m')) :
    result.Fits type.outputs ∧ m'.store.Sound serves := by
  have ho := observe_sound hb fuel [] target arguments m type hm ht ha
  rw [execute_eq_observe env fuel []] at he
  obtain ⟨a, hr, ha⟩ := Option.map_eq_some_iff.mp he
  obtain ⟨rfl, rfl⟩ := Prod.mk.inj ha
  exact ⟨ho.result a hr, ho.machine.sound⟩

theorem Store.Sound.outputs_le {target : FunctionRef} {type : FuncType} (hs : s.Sound serves)
    (ht : s.functionType? target = some type) : type.outputs.length ≤ 1 := by
  obtain ⟨f, hf, rfl⟩ := Option.map_eq_some_iff.mp ht
  exact (hs.functions target f hf).outputs

/-- A result that fits is a value exactly where one is declared, unless it aborts the caller. -/
theorem value_iff_of_fits {result : ExecutionResult} {outputs : List ValType}
    (h : result.Fits outputs) (ha : aborts result = none) :
    (∃ c, result = .value c) ↔ outputs.length = 1 := by
  cases result with
  | void =>
    rw [show outputs = [] from h]
    simp
  | value c =>
    obtain ⟨t, rfl, -⟩ := h
    simp
  | trap kind =>
    have hk : kind ≠ .none := h
    cases kind <;> first | exact absurd rfl hk | cases ha

end

/-- The frame holds locals and operands of the given types, and no other operands. -/
structure Frame.Holds (f : Frame) (locals types : List ValType) : Prop where
  height : f.height = types.length
  operands : ∀ n t, types[n]? = some t → (f.operand n).wellFormed t = true
  localCount : f.localCount = locals.length
  locals : ∀ i t, locals[i]? = some t → (f.localAt i).wellFormed t = true

/-- Frames are type sound. From a sound store, with well-formed arguments and host functions that
behave, every state that a call reaches, in any frame of the run, is as every typing of the frame's
body says: the offset lies in the body, the operands are those assigned to it, no 32-bit cell has
anything in its upper half, and all that the interpreter relies on holds, also when a call that the
frame makes returns. A call that ends gives a result of its type. -/
theorem frame_type_soundness (env : Environment) (serves : Nat → FuncType → Prop) (m : Machine)
    (hs : m.store.Sound serves) (hb : env.Behaves serves m.store) (target : FunctionRef)
    (type : FuncType) (ht : m.store.functionType? target = some type) (arguments : List Cell)
    (ha : Fits arguments type.inputs) (fuel : Nat) (path : FramePath) :
    execute env fuel target arguments m =
        (observe env fuel path target arguments m).outcome ∧
      (∀ result m', execute env fuel target arguments m = some (result, m') →
        result.Fits type.outputs ∧ m'.store.Sound serves) ∧
      ∀ v ∈ (observe env fuel path target arguments m).visits,
        (∀ g ∈ v.machine.store.globals, g.value.wellFormed g.type.valType = true) ∧
        ∃ vtype, v.machine.store.functionType? v.function = some vtype ∧
          (∃ τ, v.running.code.Typed (v.running.scope v.machine.store vtype) τ) ∧
          (∀ τ, v.running.code.Typed (v.running.scope v.machine.store vtype) τ →
            ∃ types, τ v.state.pc = some types ∧ v.state.pc < v.running.code.size ∧
              v.state.frame.Holds (vtype.inputs ++ v.running.code.locals) types ∧
              (v.running.instruction v.state.pc).Asserts
                (v.running.scope v.machine.store vtype) v.running.code (v.state.pc + 1)
                v.state.frame) ∧
          ∀ callee ctype st m',
            turn env.toObservers v.running v.state v.machine = .wait callee ctype st m' →
            m'.store.functionType? callee = some ctype ∧ ctype.outputs.length ≤ 1 ∧
            ∀ n result m'',
              execute env n callee (st.frame.topmost ctype.inputs.length) m' = some (result, m'') →
              aborts result = none →
              ((∃ c, result = .value c) ↔ ctype.outputs.length = 1) := by
  have hrefl := Store.Evolves.refl hs
  refine ⟨execute_eq_observe env fuel path target arguments m,
    fun result m' he => execute_sound hb hrefl ht ha he, fun v hv => ?_⟩
  obtain ⟨hm, vtype, hr, hst⟩ :=
    (observe_sound hb fuel path target arguments m type hrefl ht ha).visits v hv
  refine ⟨hm.sound.globals, vtype, hr.type_eq, hr.typable, fun τ hτ => ?_, ?_⟩
  · obtain ⟨types, hpc, hf⟩ := hst τ hτ
    obtain ⟨l, hc, hl⟩ := hτ.flow _ types _ hpc (instruction_of_typed hr.faithful hτ hpc)
    exact ⟨types, hpc, hτ.inside _ types hpc,
      ⟨hf.height_eq, fun _ _ => hf.operand, hf.localCount_eq, fun _ _ => hf.localAt⟩,
      asserts_of_typed hτ hr.outputs hf hc hl⟩
  · intro callee ctype st m' hturn
    have hconf := turn_conforms env.toObservers hm.sound hr hst
    rw [hturn] at hconf
    cases hconf with
    | wait hm' htype hargs h =>
      refine ⟨htype, hm'.sound.outputs_le htype, fun n result m'' he hab => ?_⟩
      have hres := (execute_sound hb (hm.trans hm') htype hargs he).1
      exact value_iff_of_fits hres hab

/-- Loads a signed byte, passes it to the host and stores the answer, or whether it is zero, in a
global. -/
def growByByte : Code where
  instructions := #[.localGet 0, .load (.packed8 .i32 .signed) 0, .call 0, .localGet 0,
    .brIf ⟨6, 0⟩ 1, .unary (.eqz .i32), .globalSet 0, .globalGet 0, .end_]
  maxHeight := 2

/-- An instance with a memory, a global, a function of the host that grows the memory, and a
function of its own. -/
def growingStore : Store where
  memories := #[{ limits := ⟨0, some 3⟩ }]
  globals := #[⟨0, ⟨.i32, true⟩⟩]
  instances := #[{
    memories := [0]
    globals := #[0]
    functions := #[
      ⟨⟨[.i32], [.i32]⟩, "grow", 0, .imported (.host 0 0)⟩,
      ⟨⟨[.i32], [.i32]⟩, "main", 1, .defined growByByte none⟩] }]

theorem growingStore_sound : growingStore.Sound fun _ type => type = ⟨[.i32], [.i32]⟩ := by
  refine ⟨by decide, ?_⟩
  rintro ⟨_ | inst, _ | _ | func⟩ f hf
  · obtain rfl := Option.some.inj hf
    exact ⟨by decide, fun _ h => (by cases h), fun _ _ _ => rfl, fun _ _ h => (by cases h)⟩
  · obtain rfl := Option.some.inj hf
    refine ⟨by decide, fun _ h => (by cases h), fun _ _ h => (by cases h), fun _ _ h => ?_⟩
    cases h
    refine ⟨⟨.ofTable [some [], some [.i32], some [.i32], some [.i32], some [.i32, .i32],
      some [.i32], some [.i32], some [], some [.i32]], Code.typed_of_check (by decide)⟩, ?_⟩
    exact ofFunction_none_faithful _ _ (by decide)
  · cases hf
  · cases hf
  · cases hf
  · cases hf

theorem growMemory_behaves (s : Store) :
    Environment.Behaves (fun _ type => type = ⟨[.i32], [.i32]⟩) s
      { host := fun _ => HostFunction.growMemory } := by
  rintro id type call m rfl hm - -
  show HostProgram.Behaves _ _ (HostFunction.growMemory call) m
  unfold HostFunction.growMemory HostFunction.growing
  rw [HostProgram.Behaves]
  dsimp only
  split
  · exact ⟨.i32, rfl, Cell.ofLow_wellFormed _ _⟩
  · exact ⟨hm.sound.growMemory _ _, .i32, rfl, Cell.ofLow_wellFormed _ _⟩

theorem growingStore_frames :
    let env : Environment := { host := fun _ => HostFunction.growMemory }
    let m : Machine := { store := growingStore }
    m.store.Sound (fun _ type => type = ⟨[.i32], [.i32]⟩) ∧
      env.Behaves (fun _ type => type = ⟨[.i32], [.i32]⟩) m.store ∧
      m.store.functionType? ⟨0, 1⟩ = some ⟨[.i32], [.i32]⟩ ∧ Fits [7] [.i32] ∧
      ∀ v ∈ (observe env 20 [] ⟨0, 1⟩ [7] m).visits,
        ∃ vtype, v.machine.store.functionType? v.function = some vtype ∧
          ∀ τ, v.running.code.Typed (v.running.scope v.machine.store vtype) τ →
            ∃ types, τ v.state.pc = some types ∧
              v.state.frame.Holds (vtype.inputs ++ v.running.code.locals) types := by
  intro env m
  have hargs : Fits [7] [.i32] := .cons (by decide) .nil
  have h := (frame_type_soundness env _ m growingStore_sound (growMemory_behaves _) ⟨0, 1⟩ _ rfl [7]
    hargs 20 []).2.2
  refine ⟨growingStore_sound, growMemory_behaves _, rfl, hargs, fun v hv => ?_⟩
  obtain ⟨-, vtype, htype, -, hall, -⟩ := h v hv
  refine ⟨vtype, htype, fun τ hτ => ?_⟩
  obtain ⟨types, hpc, -, hf, -⟩ := hall τ hτ
  exact ⟨types, hpc, hf⟩

end WasmEngine
