import WasmEngine.Proofs.Execution.Effects
import WasmEngine.Proofs.Execution.Stages

/-!
# What a run can touch

A run without host functions stays among the instances that its own one reaches through imported
functions and elements of tables. Of the store it changes the contents of their memories and
globals only; instances and tables are as before, so the same instances are reached afterwards.
-/
namespace WasmEngine
set_option autoImplicit false

namespace Store

/-- The instances that an instance leads to: through a function it imports from another one, and
through an element of its table 0. -/
inductive Reaches (s : Store) (i : InstanceId) : InstanceId → Prop
  | refl : Reaches s i i
  | imported {j : InstanceId} {func : Nat} {f : FunctionInstance} {target : FunctionRef}
      (hj : Reaches s i j) (hf : s.function? ⟨j, func⟩ = some f)
      (hb : f.body = .imported (.guest target)) : Reaches s i target.inst
  | element {j : InstanceId} {a : TableAddr} {t : Table} {e : TableElement} (hj : Reaches s i j)
      (ha : s.tableOf? j = some a) (ht : s.tables[a]? = some t) (he : some e ∈ t.elements) :
      Reaches s i e.target.inst

/-- The stores differ at most in the contents of memory 0 and of the globals of the instances in
`R`; memories may have grown. -/
structure ChangesOnly (R : InstanceId → Prop) (s s' : Store) : Prop where
  instances : s'.instances = s.instances
  tables : s'.tables = s.tables
  memories : s'.memories.size = s.memories.size
  globals : s'.globals.size = s.globals.size
  memory : ∀ (a : MemoryAddr) (x x' : Memory), s.memories[a]? = some x → s'.memories[a]? = some x' →
    x'.limits = x.limits ∧ x'.pagesLimit = x.pagesLimit ∧ x.size ≤ x'.size ∧
      (x' = x ∨ ∃ i, R i ∧ s.memoryOf? i = some a)
  global : ∀ (a : GlobalAddr) (g g' : Global), s.globals[a]? = some g → s'.globals[a]? = some g' →
    g'.type = g.type ∧ (g' = g ∨ ∃ i index, R i ∧ s.globalOf? i index = some a)

variable {R : InstanceId → Prop} {s s' s'' : Store}

/-- Reachability is a matter of instances and tables. -/
theorem reaches_of_eq (hi : s'.instances = s.instances) (ht : s'.tables = s.tables)
    {i j : InstanceId} (h : s.Reaches i j) : s'.Reaches i j := by
  induction h with
  | refl => exact .refl
  | imported _ hf hb ih => exact .imported ih (by rwa [function?, hi]) hb
  | element _ ha hx he ih => exact .element ih (by rwa [tableOf?, hi]) (by rwa [ht]) he

theorem Reaches.trans {i j k : InstanceId} (h : s.Reaches i j) (h' : s.Reaches j k) :
    s.Reaches i k := by
  induction h' with
  | refl => exact h
  | imported _ hf hb ih => exact .imported ih hf hb
  | element _ ha ht he ih => exact .element ih ha ht he

theorem Callable.reaches {i j : InstanceId} {target : FunctionRef} (hj : s.Reaches i j)
    (h : s.Callable j target) : s.Reaches i target.inst := by
  cases h with
  | own => exact hj
  | element ha ht he => exact .element hj ha ht he

namespace ChangesOnly

theorem reaches_iff (h : s.ChangesOnly R s') {i j : InstanceId} :
    s'.Reaches i j ↔ s.Reaches i j :=
  ⟨reaches_of_eq h.instances.symm h.tables.symm, reaches_of_eq h.instances h.tables⟩

theorem refl (R : InstanceId → Prop) (s : Store) : s.ChangesOnly R s where
  instances := rfl
  tables := rfl
  memories := rfl
  globals := rfl
  memory a x x' hx hx' := by
    obtain rfl := Option.some.inj (hx.symm.trans hx')
    exact ⟨rfl, rfl, Nat.le_refl _, .inl rfl⟩
  global a g g' hg hg' := by
    obtain rfl := Option.some.inj (hg.symm.trans hg')
    exact ⟨rfl, .inl rfl⟩

theorem trans (h : s.ChangesOnly R s') (h' : s'.ChangesOnly R s'') : s.ChangesOnly R s'' where
  instances := h'.instances.trans h.instances
  tables := h'.tables.trans h.tables
  memories := h'.memories.trans h.memories
  globals := h'.globals.trans h.globals
  memory a x x'' hx hx'' := by
    have hlt : a < s'.memories.size := h.memories ▸ (Array.getElem?_eq_some_iff.mp hx).1
    have hx' := Array.getElem?_eq_getElem hlt
    obtain ⟨hl, hp, hsize, hchange⟩ := h.memory a x _ hx hx'
    obtain ⟨hl', hp', hsize', hchange'⟩ := h'.memory a _ x'' hx' hx''
    refine ⟨hl'.trans hl, hp'.trans hp, Nat.le_trans hsize hsize', ?_⟩
    rcases hchange' with he | ⟨i, hi, ha⟩
    · rwa [he]
    · exact .inr ⟨i, hi, by rwa [memoryOf?, ← h.instances]⟩
  global a g g'' hg hg'' := by
    have hlt : a < s'.globals.size := h.globals ▸ (Array.getElem?_eq_some_iff.mp hg).1
    have hg' := Array.getElem?_eq_getElem hlt
    obtain ⟨ht, hchange⟩ := h.global a g _ hg hg'
    obtain ⟨ht', hchange'⟩ := h'.global a _ g'' hg' hg''
    refine ⟨ht'.trans ht, ?_⟩
    rcases hchange' with he | ⟨i, index, hi, ha⟩
    · rwa [he]
    · exact .inr ⟨i, index, hi, by rwa [globalOf?, ← h.instances]⟩

variable {i : InstanceId}

theorem updateMemory {a : MemoryAddr} {f : Memory → Memory} (hi : R i)
    (ha : s.memoryOf? i = some a)
    (hf : ∀ x : Memory, (f x).limits = x.limits ∧ (f x).pagesLimit = x.pagesLimit ∧
      x.size ≤ (f x).size) : s.ChangesOnly R (s.updateMemory a f) where
  instances := rfl
  tables := rfl
  memories := Array.size_modify ..
  globals := rfl
  memory b x x' hx hx' := by
    rw [Store.updateMemory, Array.getElem?_modify] at hx'
    split at hx'
    · next hab =>
      subst hab
      rw [hx] at hx'
      obtain rfl := Option.some.inj hx'
      obtain ⟨hl, hp, hsize⟩ := hf x
      exact ⟨hl, hp, hsize, .inr ⟨i, hi, ha⟩⟩
    · exact (refl R s).memory b x x' hx hx'
  global := (refl R s).global

theorem setGlobal {a : GlobalAddr} {index : Nat} (value : Cell) (hi : R i)
    (ha : s.globalOf? i index = some a) : s.ChangesOnly R (s.setGlobal a value) where
  instances := rfl
  tables := rfl
  memories := rfl
  globals := Array.size_modify ..
  memory := (refl R s).memory
  global b g g' hg hg' := by
    rw [Store.setGlobal, Array.getElem?_modify] at hg'
    split at hg'
    · next hab =>
      subst hab
      rw [hg] at hg'
      obtain rfl := Option.some.inj hg'
      exact ⟨rfl, .inr ⟨i, index, hi, ha⟩⟩
    · exact (refl R s).global b g g' hg hg'

end ChangesOnly

end Store

/-- A store of a number changes bytes only. -/
theorem Memory.write_keeps (width : Nat) : ∀ (x : Memory) (address value : Nat),
    (x.write address width value).limits = x.limits ∧
      (x.write address width value).pagesLimit = x.pagesLimit ∧
      (x.write address width value).size = x.size := by
  induction width with
  | zero => exact fun _ _ _ => ⟨rfl, rfl, rfl⟩
  | succ width ih =>
    intro x address value
    obtain ⟨hl, hp, hsize⟩ := ih { x with
      bytes := x.bytes.set! address (value % 256).toUInt8 } (address + 1) (value / 256)
    exact ⟨hl, hp, hsize.trans (ByteArray.size_set! ..)⟩

theorem Memory.le_size_extend (x : Memory) (delta : Nat) : x.size ≤ (x.extend delta).size := by
  unfold Memory.extend Memory.size
  rw [ByteArray.size_append]
  omega

section
variable {obs : Observers} {i : InstanceId} {m m' : Machine} {R : InstanceId → Prop}

/-- An instruction changes memory 0 and the globals of its own instance only. -/
theorem Effect.changesOnly (h : Effect obs i m m') (hi : R i) :
    m.store.ChangesOnly R m'.store := by
  cases h with
  | none => exact .refl R m.store
  | access kind address width =>
    rw [reportAccess_store]
    exact .refl R m.store
  | write address width value ha =>
    rw [Machine.updateStore, reportAccess_store]
    refine .updateMemory hi ha fun x => ?_
    obtain ⟨hl, hp, hsize⟩ := x.write_keeps width address value
    exact ⟨hl, hp, Nat.le_of_eq hsize.symm⟩
  | setGlobal value ha => exact .setGlobal value hi ha
  | grow delta ha =>
    show m.store.ChangesOnly R (m.store.growMemory _ delta).2
    unfold Store.growMemory
    split
    · exact .updateMemory hi ha fun x => ⟨rfl, rfl, x.le_size_extend delta⟩
    · exact .refl R m.store

theorem turn_changesOnly (obs : Observers) {r : Running} (s : FrameState) (m : Machine)
    (hr : R r.inst) : m.store.ChangesOnly R (turn obs r s m).machine.store := by
  obtain ⟨n, hn, h⟩ := turn_effect obs r s m
  rw [← hn]
  exact h.changesOnly hr

end

/-- The call is one of a function of `R`, and so far nothing else was touched. -/
structure Call.Confined (base : Store) (R : InstanceId → Prop) (c : Call) : Prop where
  inst : R c.target.inst
  store : base.ChangesOnly R c.machine.store

/-- The frame is one of `R`, and so far nothing else was touched. -/
structure Moment.Confined (base : Store) (R : InstanceId → Prop) (x : Moment) : Prop where
  inst : R x.running.inst
  store : base.ChangesOnly R x.machine.store

def Stage.Confined (base : Store) (R : InstanceId → Prop) : Stage → Prop
  | .instruction x => x.Confined base R
  | .call c => c.Confined base R

/-- The answer of a confined call leaves everything else as it was, if there is one. -/
def Answered (base : Store) (R : InstanceId → Prop) (o : Option (ExecutionResult × Machine)) :
    Prop :=
  ∀ e, o = some e → base.ChangesOnly R e.2.store

section
variable {obs : Observers} {invoke : Invoke} {r : Running} {s s' : FrameState} {m m' : Machine}
  {l : List Stage} {o : Option (ExecutionResult × Machine)} {R : InstanceId → Prop} {base : Store}
  {target : FunctionRef} {type : FuncType}

/-- What a frame of `R` calls is in `R`. -/
theorem confined_of_wait (hR : ∀ j k, R j → base.Reaches j k → R k) (hr : R r.inst)
    (hm : base.ChangesOnly R m.store) (hturn : turn obs r s m = .wait target type s' m')
    (arguments : List Cell) : Call.Confined base R ⟨target, arguments, m'⟩ := by
  obtain ⟨hstore, hcallable⟩ := turn_wait hturn
  have hreach : base.Reaches r.inst target.inst :=
    hm.reaches_iff.mp (hcallable.reaches .refl)
  exact ⟨hR _ _ hr hreach, by rwa [hstore]⟩

/-- A frame stays in `R` if its calls do. -/
theorem FrameRun.confined (h : FrameRun obs invoke r s m l o)
    (hR : ∀ j k, R j → base.Reaches j k → R k) (hr : R r.inst) (hm : base.ChangesOnly R m.store)
    (hl : ∀ c, .call c ∈ l → c.Confined base R →
      Answered base R (invoke c.target c.arguments c.machine)) :
    (∀ x ∈ l, x.Confined base R) ∧ Answered base R o := by
  induction h with
  | cut => exact ⟨fun _ hx => (by cases hx), fun _ he => (by cases he)⟩
  | @next s _ m m' _ _ hturn _ ih =>
    have hm' : base.ChangesOnly R m'.store := by
      have hchange := turn_changesOnly obs s m hr
      rw [hturn] at hchange
      exact hm.trans hchange
    obtain ⟨hrest, ho⟩ := ih hm' fun c hc => hl c (.tail _ hc)
    exact ⟨List.forall_mem_cons.mpr ⟨⟨hr, hm⟩, hrest⟩, ho⟩
  | @done s m m' _ hturn =>
    refine ⟨List.forall_mem_cons.mpr ⟨⟨hr, hm⟩, fun _ hx => (by cases hx)⟩, ?_⟩
    rintro _ ⟨⟩
    have hchange := turn_changesOnly obs s m hr
    rw [hturn] at hchange
    exact hm.trans hchange
  | unanswered hturn =>
    have hc := confined_of_wait hR hr hm hturn
    refine ⟨?_, fun _ he => (by cases he)⟩
    exact List.forall_mem_cons.mpr ⟨⟨hr, hm⟩, List.forall_mem_singleton.mpr (hc _)⟩
  | aborted hturn hcall =>
    have hc := confined_of_wait hR hr hm hturn
    refine ⟨List.forall_mem_cons.mpr ⟨⟨hr, hm⟩, List.forall_mem_singleton.mpr (hc _)⟩, ?_⟩
    rw [← hcall]
    exact hl _ (.tail _ (.head _)) (hc _)
  | resumed hturn hcall _ _ ih =>
    have hc := confined_of_wait hR hr hm hturn
    have hm'' := hl _ (.tail _ (.head _)) (hc _) _ hcall
    obtain ⟨hrest, ho⟩ := ih hm'' fun c hx => hl c (.tail _ (.tail _ hx))
    exact ⟨List.forall_mem_cons.mpr ⟨⟨hr, hm⟩, List.forall_mem_cons.mpr ⟨hc _, hrest⟩⟩, ho⟩

end

namespace Call

variable {env : Environment} {R : InstanceId → Prop} {base : Store}

/-- The stages of a call in `R` stay in `R` if its own calls do. -/
theorem confined_stages (fuel : Nat) (c : Call) (hhost : ¬ c.RunsHost env)
    (hR : ∀ j k, R j → base.Reaches j k → R k) (hc : c.Confined base R)
    (hcalls : ∀ c', .call c' ∈ c.stages env fuel → c'.Confined base R →
      Answered base R (c'.answer env fuel)) :
    (∀ x ∈ c.stages env fuel, x.Confined base R) ∧
      Answered base R (c.answer env (fuel + 1)) := by
  unfold stages at hcalls ⊢
  rw [answer_succ]
  have hplan := c.planned env
  cases hp : c.plan env with
  | refuse kind =>
    refine ⟨fun _ hx => (by cases hx), ?_⟩
    rintro _ ⟨⟩
    exact hc.store
  | link target =>
    rw [hp] at hcalls hplan
    have hreach : base.Reaches c.target.inst target.inst := by
      cases hplan with
      | link hf hb => exact hc.store.reaches_iff.mp (.imported .refl hf hb)
    have hnext : (c.next target).Confined base R := ⟨hR _ _ hc.inst hreach, hc.store⟩
    refine ⟨List.forall_mem_singleton.mpr hnext, fun e he => ?_⟩
    obtain ⟨e', ha, rfl⟩ := Option.map_eq_some_iff.mp he
    exact hcalls _ (.head _) hnext e' ha
  | host program => exact absurd ⟨program, hp⟩ hhost
  | frame r s =>
    rw [hp] at hcalls hplan
    have hr : r.inst = c.target.inst := by
      cases hplan with
      | frame => rfl
    obtain ⟨hstages, ho⟩ := (frameRun env (execute env fuel) r fuel s c.machine.enter).confined hR
      (hr ▸ hc.inst) hc.store hcalls
    refine ⟨hstages, fun e he => ?_⟩
    obtain ⟨e', ha, rfl⟩ := Option.map_eq_some_iff.mp he
    exact ho e' ha

/-- A run without host functions stays in `R`. -/
theorem confined (fuel : Nat) (hR : ∀ j k, R j → base.Reaches j k → R k) :
    ∀ c : Call, c.Confined base R → (∀ c' ∈ c.calls env fuel, ¬ c'.RunsHost env) →
      (∀ c' ∈ c.calls env fuel, c'.Confined base R) ∧
      (∀ x ∈ c.instructions env fuel, x.Confined base R) ∧ Answered base R (c.answer env fuel) := by
  induction fuel with
  | zero =>
    intro c hc _
    refine ⟨?_, fun _ hx => (by cases hx), fun _ he => (by cases he)⟩
    exact List.forall_mem_singleton.mpr hc
  | succ fuel ih =>
    intro c hc hhost
    -- the calls of this call run with less fuel and make no call of a host function either
    have hbeneath : ∀ c', .call c' ∈ c.stages env fuel → c'.Confined base R →
        (∀ c'' ∈ c'.calls env fuel, c''.Confined base R) ∧
        (∀ x ∈ c'.instructions env fuel, x.Confined base R) ∧
        Answered base R (c'.answer env fuel) := fun c' hc' hconfined =>
      ih c' hconfined fun c'' hc'' => hhost c'' (mem_calls_of_stage env hc' hc'')
    have hself := hhost c (mem_calls_self env _ c)
    obtain ⟨hstages, ho⟩ := confined_stages fuel c hself hR hc fun c' hc' hconfined =>
      (hbeneath c' hc' hconfined).2.2
    rw [calls, instructions]
    refine ⟨List.forall_mem_cons.mpr ⟨hc, fun c'' hc'' => ?_⟩, fun x hx => ?_, ho⟩
    · obtain ⟨_ | c', hc', hmem⟩ := List.mem_flatMap.mp hc''
      · cases hmem
      · exact (hbeneath c' hc' (hstages _ hc')).1 c'' hmem
    · obtain ⟨y | c', hc', hmem⟩ := List.mem_flatMap.mp hx
      · dsimp only at hmem
        split at hmem
        · obtain rfl := List.mem_singleton.mp hmem
          exact hstages _ hc'
        · cases hmem
      · exact (hbeneath c' hc' (hstages _ hc')).2.1 x hmem

end Call

/-- Execution touches only what is reachable. In a run without host functions, whatever its length
and its end, all calls and all frames are those of instances that the instance of the called
function reaches; at each of them and at the end the store differs from the first one at most in
the contents of memory 0 and of the globals of these instances, with no memory smaller; and the
same instances are reached as before. -/
theorem execution_confined (env : Environment) (fuel : Nat) (c : Call)
    (hhost : ∀ c' ∈ c.calls env fuel, ¬ c'.RunsHost env) :
    (∀ c' ∈ c.calls env fuel, c.machine.store.Reaches c.target.inst c'.target.inst ∧
      c.machine.store.ChangesOnly (c.machine.store.Reaches c.target.inst) c'.machine.store) ∧
    (∀ x ∈ c.instructions env fuel, c.machine.store.Reaches c.target.inst x.running.inst ∧
      c.machine.store.ChangesOnly (c.machine.store.Reaches c.target.inst) x.machine.store) ∧
    ∀ result n, c.answer env fuel = some (result, n) →
      c.machine.store.ChangesOnly (c.machine.store.Reaches c.target.inst) n.store ∧
      ∀ i j, n.store.Reaches i j ↔ c.machine.store.Reaches i j := by
  have hc : c.Confined c.machine.store (c.machine.store.Reaches c.target.inst) :=
    ⟨.refl, .refl _ _⟩
  obtain ⟨hcalls, hinstructions, hanswer⟩ :=
    Call.confined fuel (fun _ _ => Store.Reaches.trans) c hc hhost
  refine ⟨fun c' hc' => ⟨(hcalls c' hc').inst, (hcalls c' hc').store⟩,
    fun x hx => ⟨(hinstructions x hx).inst, (hinstructions x hx).store⟩, fun result n ha => ?_⟩
  have hchange := hanswer _ ha
  exact ⟨hchange, fun i j => hchange.reaches_iff⟩

/-- The first instance imports a function of the second one, which sets a global, and has one of the
third one, which writes to its memory, in its table. The fourth instance is on its own. -/
def neighbourStore : Store where
  memories := #[{ bytes := ⟨#[0, 0]⟩ }, { bytes := ⟨#[0, 0]⟩ }]
  tables := #[{ elements := #[none, some { target := ⟨2, 0⟩ }] }]
  globals := #[⟨0, ⟨.i32, true⟩⟩, ⟨0, ⟨.i32, true⟩⟩]
  instances := #[
    { module := { types := [{}] }
      functions := #[⟨{}, "set", 0, .imported (.guest ⟨1, 0⟩)⟩,
        ⟨{}, "main", 1, .defined
          { instructions := #[.call 0, .const .i32 1, .callIndirect 0, .end_]
            maxHeight := 1 } none⟩]
      tables := [0] },
    { functions := #[⟨{}, "set", 0, .defined
        { instructions := #[.const .i32 5, .globalSet 0, .end_], maxHeight := 1 } none⟩]
      globals := #[0] },
    { functions := #[⟨{}, "write", 0, .defined
        { instructions := #[.const .i32 0, .const .i32 9, .store (.packed8 .i32) 0, .end_]
          maxHeight := 2 } none⟩]
      memories := [0] },
    { memories := [1], globals := #[1] }]

theorem neighbours_confined :
    let main : Call := ⟨⟨0, 1⟩, [], { store := neighbourStore }⟩
    (∀ c' ∈ main.calls {} 10, ¬ c'.RunsHost {}) ∧
      ∃ n, main.answer {} 10 = some (.void, n) ∧
        n.store.memories.map (·.bytes.data) = #[#[9, 0], #[0, 0]] ∧
        n.store.globals.map (·.value) = #[5, 0] ∧
        neighbourStore.ChangesOnly (neighbourStore.Reaches 0) n.store := by
  intro main
  have hplans : (main.calls {} 10).all (fun c' => match c'.plan {} with
      | .host _ => false
      | _ => true) = true := by decide +kernel
  have hhost : ∀ c' ∈ main.calls {} 10, ¬ c'.RunsHost {} := by
    rintro c' hc' ⟨program, hp⟩
    have hplan := List.all_eq_true.mp hplans c' hc'
    rw [hp] at hplan
    cases hplan
  have hanswer : ((main.answer {} 10).map fun e => (e.1, e.2.store.memories.map (·.bytes.data),
      e.2.store.globals.map (·.value))) = some (.void, #[#[9, 0], #[0, 0]], #[5, 0]) := by
    decide +kernel
  obtain ⟨⟨result, n⟩, ha, he⟩ := Option.map_eq_some_iff.mp hanswer
  obtain ⟨rfl, he⟩ := Prod.mk.inj he
  obtain ⟨hmemories, hglobals⟩ := Prod.mk.inj he
  exact ⟨hhost, n, ha, hmemories, hglobals, ((execution_confined {} 10 main hhost).2.2 _ n ha).1⟩

end WasmEngine
