import WasmEngine.Embedding
import WasmEngine.Proofs.Execution.Fuel
import WasmEngine.Proofs.Execution.Meter
import WasmEngine.Proofs.Linking.Exports
import WasmEngine.Proofs.Linking.History
import WasmEngine.Proofs.Typing.Store

/-!
# Routes to a function

A function can be called where it is defined, through instances that import it and export it again,
and through a table. Each instance on the way counts as one more level of depth and makes no other
difference. A call through a table is a direct call, made in the instance that the element names;
if the table has no such element, the instruction traps and leaves the store alone.
-/
namespace WasmEngine
set_option autoImplicit false

namespace Store

/-- `g` is `f`, or an imported function that leads to `f` over `k` links. -/
inductive Forwards (s : Store) (f : FunctionRef) : Nat → FunctionRef → Prop
  | refl : Forwards s f 0 f
  | link {k : Nat} {next g : FunctionRef} {i : FunctionInstance} (h : Forwards s f k next)
      (hg : s.function? g = some i) (hi : i.body = .imported (.guest next)) : Forwards s f (k + 1) g

theorem function?_of_keeps {s s' : Store} (h : s.Keeps s') {g : FunctionRef} {i : FunctionInstance}
    (hg : s.function? g = some i) :
    ∃ i', s'.function? g = some i' ∧ i'.stateless = i.stateless := by
  obtain ⟨x, hx, hi⟩ := Option.bind_eq_some_iff.mp hg
  obtain ⟨x', hx', hstays⟩ := h.instances _ x hx
  have hfunctions : x'.functions.map FunctionInstance.stateless =
      x.functions.map FunctionInstance.stateless := congrArg ModuleInstance.functions hstays
  have hget := congrArg (·[g.func]?) hfunctions
  rw [Array.getElem?_map, Array.getElem?_map, hi] at hget
  obtain ⟨i', hi', heq⟩ := Option.map_eq_some_iff.mp hget
  refine ⟨i', ?_, heq⟩
  unfold function?
  rw [hx', Option.bind_some, hi']

/-- Links stay, whatever becomes of a store. -/
theorem Forwards.of_keeps {s s' : Store} {f g : FunctionRef} {k : Nat} (h : s.Forwards f k g)
    (hs : s.Keeps s') : s'.Forwards f k g := by
  induction h with
  | refl => exact .refl
  | link _ hg hi ih =>
    obtain ⟨i', hg', hstateless⟩ := function?_of_keeps hs hg
    refine ih.link hg' ?_
    have hbody := congrArg FunctionInstance.body hstateless
    unfold FunctionInstance.stateless at hbody
    dsimp only at hbody
    rw [hi] at hbody
    cases hi' : i'.body with
    | imported callee =>
      rw [hi'] at hbody
      cases callee with
      | guest next' => exact hbody
      | host id state => cases hbody
    | defined code instrumented =>
      rw [hi'] at hbody
      cases hbody

/-- The entry of table 0 of an instance at an index, if the table reaches so far. -/
def elementAt? (s : Store) (i : InstanceId) (index : Nat) : Option (Option TableElement) :=
  (((s.tableOf? i).bind (s.tables[·]?)).map (·.elements)).bind (·[index]?)

/-- The type that an indirect call in an instance expects. -/
def typeAt? (s : Store) (i : InstanceId) (type : Nat) : Option FuncType :=
  (s.instances[i]?).bind (·.module.types[type]?)

end Store

namespace Machine

/-- The machine `k` levels deeper. -/
def descend (m : Machine) (k : Nat) : Machine :=
  { m with context.depth := m.context.depth + k }

/-- The machine `k` levels higher. -/
def ascend (m : Machine) (k : Nat) : Machine :=
  { m with context.depth := m.context.depth - k }

variable (m : Machine) (k : Nat)

theorem enter_descend : m.enter.descend k = m.descend (k + 1) := by
  unfold enter descend
  dsimp only
  rw [Nat.add_assoc, Nat.add_comm 1 k]

theorem ascend_leave : (m.ascend k).leave = m.ascend (k + 1) := by
  unfold leave ascend
  dsimp only
  rw [Nat.sub_sub]

theorem descend_ascend : (m.descend k).ascend k = m := by
  unfold descend ascend
  dsimp only
  rw [Nat.add_sub_cancel]

end Machine

section
variable {env : Environment} {s : Store} {f g : FunctionRef} {k : Nat}

/-- A call over `k` links is a call of the function they lead to, `k` levels deeper. It may come to
the limit on the way, and then the function is not called below it either. -/
theorem answer_of_forwards (h : s.Forwards f k g) (arguments : List Cell) (fuel : Nat) :
    ∀ m : Machine, m.store = s → m.interruptRequested = false →
      (Call.mk g arguments m).answer env (fuel + 1 + k) =
        ((Call.mk f arguments (m.descend k)).answer env (fuel + 1)).map
          fun e => (e.1, e.2.ascend k) := by
  induction h with
  | refl => exact fun m _ _ => Option.map_id'.symm
  | @link k next g i _ hg hi ih =>
    rintro m rfl hflag
    by_cases hlimit : callStackLimit ≤ m.context.depth
    · have hdeeper : callStackLimit ≤ (m.descend (k + 1)).context.depth :=
        Nat.le_add_right_of_le hlimit
      rw [← Nat.add_assoc, Call.answer_of_limit hlimit, Call.answer_of_limit hdeeper,
        Option.map_some, m.descend_ascend]
    · have hplan : (Call.mk g arguments m).plan env = .link next := by
        unfold Call.plan
        rw [if_neg hlimit, hflag, if_neg nofun, hg]
        dsimp only
        rw [hi]
      have hnext := ih m.enter rfl hflag
      rw [m.enter_descend] at hnext
      rw [← Nat.add_assoc, Call.answer_succ, hplan]
      dsimp only [Call.next]
      rw [hnext, Option.map_map]
      refine congrArg (Option.map · _) (funext fun e => ?_)
      exact congrArg (Prod.mk e.1) (e.2.ascend_leave k)

/-- Both calls answer alike, or neither of them answers. -/
theorem answers_of_forwards {m : Machine} (h : m.store.Forwards f k g)
    (hflag : m.interruptRequested = false) (arguments : List Cell) (result : ExecutionResult)
    (n : Machine) :
    (∃ fuel, (Call.mk g arguments m).answer env fuel = some (result, n)) ↔
      ∃ fuel n', (Call.mk f arguments (m.descend k)).answer env fuel = some (result, n') ∧
        n = n'.ascend k := by
  constructor
  · rintro ⟨fuel, ha⟩
    have hmore := execute_le env (show fuel ≤ fuel + 1 + k by omega) _ _ _ _ ha
    rw [← Call.answer.eq_def env _ ⟨g, arguments, m⟩,
      answer_of_forwards h arguments fuel m rfl hflag] at hmore
    obtain ⟨⟨result', n'⟩, ha', heq⟩ := Option.map_eq_some_iff.mp hmore
    obtain ⟨rfl, rfl⟩ := Prod.mk.inj heq
    exact ⟨fuel + 1, n', ha', rfl⟩
  · rintro ⟨fuel, n', ha, rfl⟩
    refine ⟨fuel + 1 + k, ?_⟩
    rw [answer_of_forwards h arguments fuel m rfl hflag]
    exact Option.map_eq_some_iff.mpr
      ⟨_, execute_le env (Nat.le_add_right fuel 1) _ _ _ _ ha, rfl⟩

end

section
variable (env : Environment) (fuel steps : Nat) (r : Running) (s : FrameState) (m : Machine)

/-- A frame calls a function with its topmost operands and goes on with what comes of it. -/
def callFrom (target : FunctionRef) (type : FuncType) : Option (ExecutionResult × Machine) :=
  ((Call.mk target (s.frame.topmost type.inputs.length) m).answer env fuel).bind fun (result, m) =>
    match aborts result with
    | some kind => some (.trap kind, m)
    | none => runFrame env (execute env fuel) r steps (s.resume type result) m

/-- The state of a frame and the machine once the instruction at its place is paid for and the
probe there, if there is one, has been reported. -/
def reached (obs : Observers) : FrameState × Machine :=
  reportAt obs r s (m.withContext m.context.charge.2)

theorem reached_store (obs : Observers) : (reached r s m obs).2.store = m.store :=
  reportAt_store ..

variable {env fuel steps r s m}

theorem turn_eq_paidTurn (obs : Observers) (hpaid : m.context.charge.1 = true) :
    turn obs r s m = paidTurn obs r s (m.withContext m.context.charge.2) := by
  unfold turn
  rcases hcharge : m.context.charge with ⟨paid, context⟩
  obtain rfl : paid = true := by rwa [hcharge] at hpaid
  rfl

/-- A frame at a direct call. -/
theorem runFrame_call {func : Nat} (hcall : r.instruction s.pc = .call func)
    (hpaid : m.context.charge.1 = true) :
    runFrame env (execute env fuel) r (steps + 1) s m =
      callFrom env fuel steps r
        ⟨s.pc + 1, s.frame, (reached r s m env.toObservers).1.previous⟩
        (reached r s m env.toObservers).2 ⟨r.inst, func⟩
        ((m.store.functionType? ⟨r.inst, func⟩).getD {}) := by
  rw [runFrame_succ, turn_eq_paidTurn _ hpaid]
  unfold paidTurn
  rw [hcall, ← reached_store r s m env.toObservers]
  rfl

variable {type : Nat}

/-- What an indirect call comes to: a direct call, in the instance of the element and without the
index on top, or one of three traps. -/
theorem step_callIndirect (obs : Observers) (i : InstanceId) (code : Code) (next : Nat)
    (frame : Frame) (m : Machine) :
    step obs i code (.callIndirect type) next frame m =
      match m.store.elementAt? i frame.peek.index with
      | none => .trap .undefinedElement m
      | some none => .trap .uninitializedElement m
      | some (some element) =>
        if m.store.typeAt? i type = m.store.functionType? element.target then
          .call element.target ((m.store.functionType? element.target).getD {}) (frame.drop 1) m
        else .trap .indirectCallTypeMismatch m := rfl

/-- A frame at an indirect call. -/
theorem runFrame_callIndirect (hcall : r.instruction s.pc = .callIndirect type)
    (hpaid : m.context.charge.1 = true) :
    runFrame env (execute env fuel) r (steps + 1) s m =
      match m.store.elementAt? r.inst s.frame.peek.index with
      | none => some (.trap .undefinedElement, (reached r s m env.toObservers).2)
      | some none => some (.trap .uninitializedElement, (reached r s m env.toObservers).2)
      | some (some element) =>
        if m.store.typeAt? r.inst type = m.store.functionType? element.target then
          callFrom env fuel steps r
            ⟨s.pc + 1, s.frame.drop 1, (reached r s m env.toObservers).1.previous⟩
            (reached r s m env.toObservers).2 element.target
            ((m.store.functionType? element.target).getD {})
        else some (.trap .indirectCallTypeMismatch, (reached r s m env.toObservers).2) := by
  rw [runFrame_succ, turn_eq_paidTurn _ hpaid, ← reached_store r s m env.toObservers]
  unfold paidTurn reached
  generalize reportAt env.toObservers r s (m.withContext m.context.charge.2) = reported
  obtain ⟨s', m'⟩ := reported
  dsimp only
  rw [hcall, step_callIndirect]
  cases m'.store.elementAt? r.inst s.frame.peek.index with
  | none => rfl
  | some entry =>
    cases entry with
    | none => rfl
    | some element =>
      dsimp only
      by_cases htype : m'.store.typeAt? r.inst type = m'.store.functionType? element.target
      · rw [if_pos htype, if_pos htype]
        rfl
      · rw [if_neg htype, if_neg htype]
        rfl

end

/-- What a frame does at an indirect call, by what table 0 of its instance holds at the index on top
of the operands. -/
structure CallsThroughTable (env : Environment) (fuel steps : Nat) (r : Running) (s : FrameState)
    (m : Machine) (type : Nat) : Prop where
  store : (reached r s m env.toObservers).2.store = m.store
  undefined : m.store.elementAt? r.inst s.frame.peek.index = none →
    runFrame env (execute env fuel) r (steps + 1) s m =
      some (.trap .undefinedElement, (reached r s m env.toObservers).2)
  uninitialized : m.store.elementAt? r.inst s.frame.peek.index = some none →
    runFrame env (execute env fuel) r (steps + 1) s m =
      some (.trap .uninitializedElement, (reached r s m env.toObservers).2)
  mismatch : ∀ element, m.store.elementAt? r.inst s.frame.peek.index = some (some element) →
    m.store.typeAt? r.inst type ≠ m.store.functionType? element.target →
      runFrame env (execute env fuel) r (steps + 1) s m =
        some (.trap .indirectCallTypeMismatch, (reached r s m env.toObservers).2)
  /-- The instruction is the direct call in the instance that the element names, with the operands
  that are left. -/
  direct : ∀ element, m.store.elementAt? r.inst s.frame.peek.index = some (some element) →
    m.store.typeAt? r.inst type = m.store.functionType? element.target →
      runFrame env (execute env fuel) r (steps + 1) s m =
          callFrom env fuel steps r
            ⟨s.pc + 1, s.frame.drop 1, (reached r s m env.toObservers).1.previous⟩
            (reached r s m env.toObservers).2 element.target
            ((m.store.functionType? element.target).getD {}) ∧
        ∀ code code' next next' m', m'.store = m.store →
          step env.toObservers r.inst code (.callIndirect type) next s.frame m' =
            step env.toObservers element.target.inst code' (.call element.target.func) next'
              (s.frame.drop 1) m'

theorem callsThroughTable (env : Environment) (fuel steps : Nat) {r : Running} {s : FrameState}
    {m : Machine} {type : Nat} (hcall : r.instruction s.pc = .callIndirect type)
    (hpaid : m.context.charge.1 = true) : CallsThroughTable env fuel steps r s m type := by
  have hrun := @runFrame_callIndirect env fuel steps r s m type hcall hpaid
  refine ⟨reached_store r s m env.toObservers, fun he => ?_, fun he => ?_,
    fun element he htype => ?_, fun element he htype => ⟨?_, ?_⟩⟩
  · rw [hrun, he]
  · rw [hrun, he]
  · rw [hrun, he]
    exact if_neg htype
  · rw [hrun, he]
    exact if_pos htype
  · intro code code' next next' m' hm'
    rw [step_callIndirect, hm', he]
    dsimp only
    rw [if_pos htype, ← hm']
    rfl

theorem FunctionInstance.body_of_given? {x : FunctionInstance} {g : FunctionRef} {type : FuncType}
    (h : x.given? = some (.function (.guest g) type)) : x.body = .imported (.guest g) := by
  unfold given? at h
  split at h
  · next callee hbody =>
    obtain ⟨hcallee, -⟩ := Entity.function.inj (Option.some.inj h)
    cases callee with
    | guest next => rw [hbody, ← hcallee]; rfl
    | host id state => cases hcallee
  · cases h

/-- A new instance that imports a function has one more link to where that function leads, and shows
the link if it exports it. -/
theorem forwards_of_instantiate {env : Environment} {fuel : Nat} {module : Module}
    {entities : List Entity} {config : EngineConfig} {m m' : Machine} {id : InstanceId}
    (hhost : ∀ start, module.start = some start → env.Orderly fun _ => True)
    (h : instantiate env fuel module entities config m = some (.ok id, m')) {f g : FunctionRef}
    {k index : Nat} {type : FuncType} (hg : m.store.Forwards f k g)
    (himport : (provided .function module.imports entities)[index]? =
      some (.function (.guest g) type)) :
    m'.store.Forwards f (k + 1) ⟨id, index⟩ ∧
      ((module.exports.map (·.name)).Nodup → ∀ name,
        module.findExport? .function name = some index →
          ∃ i type, m'.store.instances[id]? = some i ∧
            i.exportedFunction? name = some (.guest ⟨id, index⟩, type)) := by
  obtain ⟨-, e, he⟩ | ⟨a, ha, hid, hrest⟩ := instantiate_cases hhost h
  · cases he
  obtain rfl := hid id rfl
  have hkeeps : m.store.Keeps m'.store := (appends_of_allocate ha).keeps.trans hrest.keeps
  obtain ⟨i, hi, hstays, hlaid⟩ := laidOut_of_keeps ha hrest.keeps
  constructor
  · have hgiven := congrArg (·[index]?) hlaid.importedFunctions
    rw [List.getElem?_map, List.getElem?_map, himport, Option.map_some] at hgiven
    obtain ⟨x, hx, hgiven⟩ := Option.map_eq_some_iff.mp hgiven
    have hfunction : i.functions[index]? = some x := by
      rw [List.getElem?_take] at hx
      split at hx
      · rwa [Array.getElem?_toList] at hx
      · cases hx
    refine (hg.of_keeps hkeeps).link (i := x) ?_ ?_
    · unfold Store.function?
      rw [hi, Option.bind_some, hfunction]
    · exact FunctionInstance.body_of_given? hgiven
  · intro hnames name hname
    refine ⟨i, (module.functionType? index).getD {}, hi, ?_⟩
    rw [(exposes_of_allocate ha hnames hstays).function name, hname]
    rfl

/-- All routes to a function agree. A call over `k` instances that import the function and export it
again answers exactly if the direct call `k` levels deeper does, with the same result and the same
machine but for the depth; at the limit both are refused and change nothing, and both give the depth
back if host functions leave it alone. An instance that imports a function is one more link to it,
and so is what it exports. An indirect call makes the direct call of the function that the element
of the table names, in the instance that it names and with the operands below the index, if the
element is set and has the expected type; otherwise it traps, for the first of three reasons, and
leaves the store alone. -/
theorem routes_agree (env : Environment) (m : Machine) {f g : FunctionRef} {k : Nat}
    (h : m.store.Forwards f k g) (hflag : m.interruptRequested = false) (arguments : List Cell) :
    (∀ result n, (∃ fuel, (Call.mk g arguments m).answer env fuel = some (result, n)) ↔
      ∃ fuel n', (Call.mk f arguments (m.descend k)).answer env fuel = some (result, n') ∧
        n = n'.ascend k) ∧
    (callStackLimit ≤ m.context.depth + k → ∀ fuel,
      (Call.mk g arguments m).answer env (fuel + 1 + k) = some (.trap .callStackExhausted, m) ∧
      (Call.mk f arguments (m.descend k)).answer env (fuel + 1) =
        some (.trap .callStackExhausted, m.descend k)) ∧
    ((∀ fuel, ∀ c ∈ (Call.mk f arguments (m.descend k)).calls env fuel, c.KeepsDepth env) →
      (∀ fuel result n, (Call.mk g arguments m).answer env fuel = some (result, n) →
        n.context.depth = m.context.depth) ∧
      ∀ fuel result n, (Call.mk f arguments (m.descend k)).answer env fuel = some (result, n) →
        n.context.depth = m.context.depth + k) ∧
    (∀ fuel module entities config m' id index type,
      (∀ start, module.start = some start → env.Orderly fun _ => True) →
      instantiate env fuel module entities config m = some (.ok id, m') →
      (provided .function module.imports entities)[index]? =
        some (.function (.guest g) type) →
      m'.store.Forwards f (k + 1) ⟨id, index⟩ ∧
        ((module.exports.map (·.name)).Nodup → ∀ name,
          module.findExport? .function name = some index →
            ∃ i type, m'.store.instances[id]? = some i ∧
              i.exportedFunction? name = some (.guest ⟨id, index⟩, type))) ∧
    (∀ (fuel steps : Nat) (r : Running) (s : FrameState) (m : Machine) (func : Nat),
      r.instruction s.pc = .call func → m.context.charge.1 = true →
        runFrame env (execute env fuel) r (steps + 1) s m = callFrom env fuel steps r
          ⟨s.pc + 1, s.frame, (reached r s m env.toObservers).1.previous⟩
          (reached r s m env.toObservers).2 ⟨r.inst, func⟩
          ((m.store.functionType? ⟨r.inst, func⟩).getD {})) ∧
    ∀ (fuel steps : Nat) (r : Running) (s : FrameState) (m : Machine) (type : Nat),
      r.instruction s.pc = .callIndirect type → m.context.charge.1 = true →
        CallsThroughTable env fuel steps r s m type := by
  have hroutes := @answers_of_forwards env f g k m h hflag arguments
  refine ⟨hroutes, fun hlimit fuel => ?_, fun hhost => ?_, ?_, ?_, ?_⟩
  · have hdirect : (Call.mk f arguments (m.descend k)).answer env (fuel + 1) =
        some (.trap .callStackExhausted, m.descend k) := Call.answer_of_limit hlimit fuel
    refine ⟨?_, hdirect⟩
    rw [answer_of_forwards h arguments fuel m rfl hflag, hdirect, Option.map_some, m.descend_ascend]
  · have hdirect : ∀ fuel result n,
        (Call.mk f arguments (m.descend k)).answer env fuel = some (result, n) →
          n.context.depth = m.context.depth + k := fun fuel _ _ ha =>
      (Call.descends fuel _ (hhost fuel)).answer _ ha
    refine ⟨fun fuel result n ha => ?_, hdirect⟩
    obtain ⟨fuel', n', ha', rfl⟩ := (hroutes result n).mp ⟨fuel, ha⟩
    have hdepth := hdirect fuel' result n' ha'
    unfold Machine.ascend
    dsimp only
    rw [hdepth, Nat.add_sub_cancel]
  · exact fun _ _ _ _ _ _ _ _ hhost hinst himport => forwards_of_instantiate hhost hinst h himport
  · exact fun _ _ _ _ _ _ hcall hpaid => runFrame_call hcall hpaid
  · exact fun fuel steps _ _ _ _ hcall hpaid => callsThroughTable env fuel steps hcall hpaid

/-- A function, two instances that pass it on, and one that holds the last link in its table. -/
def relayingStore : Store where
  tables := #[{ elements := #[none, some { target := ⟨2, 0⟩ }] }]
  instances := #[
    { functions := #[⟨⟨[.i32], [.i32]⟩, "same", 0,
        .defined { instructions := #[.localGet 0, .end_], maxHeight := 1 } none⟩] },
    { functions := #[⟨⟨[.i32], [.i32]⟩, "relay", 0, .imported (.guest ⟨0, 0⟩)⟩] },
    { functions := #[⟨⟨[.i32], [.i32]⟩, "relay", 0, .imported (.guest ⟨1, 0⟩)⟩] },
    { module := { types := [⟨[.i32], [.i32]⟩, {}] }, tables := [0] }]

/-- The links keep the result and the depth; two levels below the limit the function is refused. In
the table the link is found at the type of the function only. -/
theorem relays_agree :
    let m (depth : Nat) : Machine := { store := relayingStore, context := { depth } }
    let frame : Frame := ((Frame.enter [] 0 2).push 5).push 1
    let caller (type : Nat) : Running := ⟨3, "main", {}, #[.callIndirect type, .end_], #[], true⟩
    relayingStore.Forwards ⟨0, 0⟩ 2 ⟨2, 0⟩ ∧
      (∃ fuel n, (Call.mk ⟨2, 0⟩ [7] (m 3)).answer {} fuel = some (.value 7, n) ∧
        n.context.depth = 3) ∧
      (Call.mk ⟨2, 0⟩ [7] (m 2046)).answer {} 3 = some (.trap .callStackExhausted, m 2046) ∧
      runFrame {} (execute {} 5) (caller 0) 2 ⟨0, frame, entryBlock⟩ (m 3) =
        callFrom {} 5 1 (caller 0) ⟨1, frame.drop 1, entryBlock⟩ (m 3) ⟨2, 0⟩ ⟨[.i32], [.i32]⟩ ∧
      runFrame {} (execute {} 5) (caller 1) 2 ⟨0, frame, entryBlock⟩ (m 3) =
        some (.trap .indirectCallTypeMismatch, m 3) := by
  intro m frame caller
  have hlinks : relayingStore.Forwards ⟨0, 0⟩ 2 ⟨2, 0⟩ :=
    (Store.Forwards.refl.link rfl rfl).link rfl rfl
  obtain ⟨hroutes, -, -, -, -, htable⟩ := routes_agree {} (m 3) hlinks rfl [7]
  obtain ⟨-, hlimit, -⟩ := routes_agree {} (m 2046) hlinks rfl [7]
  refine ⟨hlinks, ?_, (hlimit (by decide) 0).1, ?_, ?_⟩
  · have hdirect : ((Call.mk ⟨0, 0⟩ [7] ((m 3).descend 2)).answer {} 4).map
        (fun e => (e.1, e.2.context.depth)) = some (.value 7, 5) := by decide +kernel
    obtain ⟨⟨result, n⟩, ha, heq⟩ := Option.map_eq_some_iff.mp hdirect
    obtain ⟨rfl, hdepth⟩ := Prod.mk.inj heq
    obtain ⟨fuel, hrelayed⟩ := (hroutes _ _).mpr ⟨4, n, ha, rfl⟩
    exact ⟨fuel, n.ascend 2, hrelayed, congrArg (· - 2) hdepth⟩
  · exact ((htable 5 1 (caller 0) ⟨0, frame, entryBlock⟩ (m 3) 0 rfl rfl).direct
      { target := ⟨2, 0⟩ } rfl rfl).1
  · exact (htable 5 1 (caller 1) ⟨0, frame, entryBlock⟩ (m 3) 1 rfl rfl).mismatch
      { target := ⟨2, 0⟩ } rfl (by decide)

end WasmEngine
