import WasmEngine.Proofs.Embedding.Order
import WasmEngine.Proofs.Linking.Layout

/-!
# Limits of shared memories and tables

An import is checked when its module is linked and never again. All the same the size of what it
refers to stays within the limits that it declares: the limits of an entity never change, those of
the import leave room around them, and an entity only grows within its own, whoever grows it.
-/
namespace WasmEngine
set_option autoImplicit false

/-- No table or memory that the module declares has a maximum below its minimum. -/
def Module.LimitsOrdered (module : Module) : Prop :=
  (∀ l ∈ module.tables, ∀ most, l.max = some most → l.min ≤ most) ∧
    ∀ l ∈ module.memories, ∀ most, l.max = some most → l.min ≤ most

/-- What an embedder does with a machine: it changes the store itself (it writes, grows a memory or
a table, adds an entity) or sets up another context, instantiates a module, calls a function; and
what it finds meanwhile, at an instruction of a call or in a host function. -/
inductive Move (env : Environment) (m : Machine) : Machine → Prop
  | change {m' : Machine} (h : m.store.Change Module.LimitsOrdered m'.store) : Move env m m'
  | instantiate {fuel : Nat} {module : Module} {entities : List Entity} {config : EngineConfig}
      {result : Except InstantiationError InstanceId} {m' : Machine} (hm : module.LimitsOrdered)
      (h : instantiate env fuel module entities config m = some (result, m')) : Move env m m'
  | execute {fuel : Nat} {target : FunctionRef} {arguments : List Cell} {result : ExecutionResult}
      {m' : Machine} (h : execute env fuel target arguments m = some (result, m')) : Move env m m'
  | visit {fuel : Nat} {target : FunctionRef} {arguments : List Cell} {v : Visit}
      (h : v ∈ (observe env fuel [] target arguments m).visits) : Move env m v.machine
  | host {fuel : Nat} {id : Nat} {call : HostCall} {m' : Machine}
      (h : m' ∈ programMachines (WasmEngine.execute env fuel) (env.host id call) m) : Move env m m'

/-- The machines that moves lead to. -/
def Machine.Reaches (env : Environment) : Machine → Machine → Prop :=
  Relation.ReflTransGen (Move env)

/-- Size, limits and ceiling of a memory, in pages, or of a table, in elements. -/
structure Extent where
  size : Nat
  limits : Limits
  ceiling : Nat

def Memory.extent (x : Memory) : Extent :=
  ⟨x.pages, x.limits, Nat.min x.pagesLimit addressablePages⟩

def Table.extent (t : Table) : Extent := ⟨t.size, t.limits, t.elementsLimit⟩

namespace Limits

/-- The size lies between the minimum and the maximum. -/
structure Bounds (l : Limits) (size : Nat) : Prop where
  min : l.min ≤ size
  max : ∀ most, l.max = some most → size ≤ most

theorem admits_iff {l : Limits} {size : Nat} : l.admits size = true ↔ l.Bounds size := by
  unfold admits
  rw [Bool.and_eq_true_iff, decide_eq_true_iff, Option.all_eq_true]
  simp only [decide_eq_true_eq]
  exact ⟨fun h => ⟨h.1, h.2⟩, fun h => ⟨h.min, h.max⟩⟩

theorem top_le {l : Limits} {most : Nat} (h : l.max = some most) (ceiling : Nat) :
    l.top ceiling ≤ most := by
  unfold top
  rw [h]
  exact Nat.min_le_left ..

theorem le_top {l : Limits} {size ceiling : Nat} (hc : size ≤ ceiling)
    (hl : ∀ most, l.max = some most → size ≤ most) : size ≤ l.top ceiling := by
  unfold top
  cases hmax : l.max with
  | none => exact hc
  | some most => exact Nat.le_min.mpr ⟨hl most hmax, hc⟩

end Limits

namespace Extent

/-- What may become of the extent: a greater size below the ceiling. -/
structure Grows (e e' : Extent) : Prop where
  limits : e'.limits = e.limits
  ceiling : e'.ceiling = e.ceiling
  size : e.size ≤ e'.size
  bound : e'.size = e.size ∨ e'.size ≤ e.limits.top e.ceiling

/-- The extent of an entity that was declared with the limits `l`. -/
structure Obeys (l : Limits) (e : Extent) : Prop where
  limits : e.limits = l
  min : l.min ≤ e.size
  max : e.size ≤ l.top e.ceiling

/-- The extent of an entity that an import with the limits `l` refers to. -/
structure Serves (l : Limits) (e : Extent) : Prop where
  within : e.limits.Within l
  admits : e.limits.admits e.size = true

variable {l : Limits} {e e' : Extent}

theorem Obeys.of_grows (h : e.Obeys l) (hg : e.Grows e') : e'.Obeys l where
  limits := hg.limits.trans h.limits
  min := Nat.le_trans h.min hg.size
  max := by
    rw [hg.ceiling]
    rcases hg.bound with hb | hb
    · exact hb ▸ h.max
    · exact h.limits ▸ hb

/-- Growth stays below the maximum of the entity's own limits. -/
theorem Serves.of_grows (h : e.Serves l) (hg : e.Grows e') : e'.Serves l where
  within := hg.limits ▸ h.within
  admits := by
    obtain ⟨hmin, hmax⟩ := Limits.admits_iff.mp h.admits
    rw [hg.limits]
    refine Limits.admits_iff.mpr ⟨Nat.le_trans hmin hg.size, fun most hmost => ?_⟩
    rcases hg.bound with hb | hb
    · exact hb ▸ hmax most hmost
    · exact Nat.le_trans hb (Limits.top_le hmost _)

/-- The limits of the entity leave no room beyond those of the import. -/
theorem Serves.bounds (h : e.Serves l) : l.Bounds e.size := by
  obtain ⟨hmin, hmax⟩ := Limits.admits_iff.mp h.admits
  refine ⟨Nat.le_trans h.within.min hmin, fun most hl => ?_⟩
  obtain ⟨n, hn, hle⟩ := h.within.max most hl
  exact Nat.le_trans (hmax n hn) hle

end Extent

theorem Memory.Grows.extent {x x' : Memory} (h : x.Grows x') : x.extent.Grows x'.extent where
  limits := h.limits
  ceiling := congrArg (Nat.min · addressablePages) h.pagesLimit
  size := by
    obtain ⟨delta, hsize⟩ := h.size
    exact Nat.le.intro (pages_eq_add hsize).symm
  bound := h.bound

theorem Memory.Grows.dvd_size {x x' : Memory} (h : x.Grows x') (hx : pageSize ∣ x.size) :
    pageSize ∣ x'.size := by
  obtain ⟨delta, hsize⟩ := h.size
  rw [hsize]
  exact Nat.dvd_add hx (Nat.dvd_mul_left ..)

theorem Table.Grows.extent {t t' : Table} (h : t.Grows t') : t.extent.Grows t'.extent :=
  ⟨h.limits, h.elementsLimit, h.size, h.bound⟩

namespace Store

/-- The tables and memories of an instance keep to the limits that its module declares for them. -/
structure Guards (s : Store) (i : ModuleInstance) : Prop where
  ownTables : ∀ (k : Nat) (l : Limits), i.module.tables[k]? = some l →
    ∃ a t, i.tables[i.module.importCount .table + k]? = some a ∧ s.tables[a]? = some t ∧
      t.extent.Obeys l
  ownMemories : ∀ (k : Nat) (l : Limits), i.module.memories[k]? = some l →
    ∃ a x, i.memories[i.module.importCount .memory + k]? = some a ∧ s.memories[a]? = some x ∧
      x.extent.Obeys l ∧ pageSize ∣ x.size
  importedTables : ∀ (k : Nat) (imported : Import) (l : Limits),
    (i.module.importsOf .table)[k]? = some imported → imported.type = .table l →
      ∃ a t, i.tables[k]? = some a ∧ s.tables[a]? = some t ∧ t.extent.Serves l
  importedMemories : ∀ (k : Nat) (imported : Import) (l : Limits),
    (i.module.importsOf .memory)[k]? = some imported → imported.type = .memory l →
      ∃ a x, i.memories[k]? = some a ∧ s.memories[a]? = some x ∧ x.extent.Serves l

/-- All instances keep to their limits. -/
def WithinLimits (s : Store) : Prop :=
  ∀ (id : InstanceId) (i : ModuleInstance), s.instances[id]? = some i → s.Guards i

variable {s s' : Store} {i i' : ModuleInstance}

/-- Whatever becomes of the store, an instance that keeps to its limits goes on to. -/
theorem Guards.of_keeps (h : s.Guards i) (hs : s.Keeps s') (hi : i.Stays i') : s'.Guards i' := by
  obtain ⟨origin, functions, tables, memories, globals, exports, listener, tracer⟩ := i
  obtain ⟨origin', functions', tables', memories', globals', exports', listener', tracer'⟩ := i'
  obtain ⟨rfl, -, rfl, rfl, rfl, rfl, rfl, rfl⟩ := ModuleInstance.mk.inj hi
  refine ⟨fun k l hl => ?_, fun k l hl => ?_, fun k imported l hk hl => ?_,
    fun k imported l hk hl => ?_⟩
  · obtain ⟨a, t, ha, ht, hobeys⟩ := h.ownTables k l hl
    obtain ⟨t', ht', hgrows⟩ := hs.tables a t ht
    exact ⟨a, t', ha, ht', hobeys.of_grows hgrows.extent⟩
  · obtain ⟨a, x, ha, hx, hobeys, hpages⟩ := h.ownMemories k l hl
    obtain ⟨x', hx', hgrows⟩ := hs.memories a x hx
    exact ⟨a, x', ha, hx', hobeys.of_grows hgrows.extent, hgrows.dvd_size hpages⟩
  · obtain ⟨a, t, ha, ht, hserves⟩ := h.importedTables k imported l hk hl
    obtain ⟨t', ht', hgrows⟩ := hs.tables a t ht
    exact ⟨a, t', ha, ht', hserves.of_grows hgrows.extent⟩
  · obtain ⟨a, x, ha, hx, hserves⟩ := h.importedMemories k imported l hk hl
    obtain ⟨x', hx', hgrows⟩ := hs.memories a x hx
    exact ⟨a, x', ha, hx', hserves.of_grows hgrows.extent⟩

end Store

section
variable {s : Store} {module : Module} {entities : List Entity} {config : EngineConfig}
  {a : Allocation}

/-- The entity that is given for the `k`-th import of a kind is accepted by it. -/
theorem accepts_of_getElem? {kind : EntityKind} {k : Nat} {imported : Import}
    (h : List.Forall₂ (Import.Accepts s) module.imports entities)
    (hk : (module.importsOf kind)[k]? = some imported) :
    ∃ e, (provided kind module.imports entities)[k]? = some e ∧ imported.Accepts s e := by
  have hall := accepts_provided kind h
  obtain ⟨hlt, rfl⟩ := List.getElem?_eq_some_iff.mp hk
  have hlt' : k < (provided kind module.imports entities).length := hall.length_eq ▸ hlt
  exact ⟨_, List.getElem?_eq_getElem hlt', hall.get hlt hlt'⟩

theorem getElem?_of_map_take {α β : Type} {f : α → β} {l : List α} {n k : Nat} {y : β}
    (h : ((l.take n).map f)[k]? = some y) : ∃ x, l[k]? = some x ∧ f x = y := by
  rw [List.getElem?_map, List.getElem?_take] at h
  obtain ⟨x, hx, hy⟩ := Option.map_eq_some_iff.mp h
  split at hx
  · exact ⟨x, hx, hy⟩
  · cases hx

theorem Memory.pages_create (l : Limits) (pagesLimit : Nat) :
    (create l pagesLimit).pages = l.min := by
  unfold pages create size
  rw [size_zeros]
  exact Nat.mul_div_cancel _ (by decide)

theorem Table.size_create (l : Limits) (elementsLimit : Nat) :
    (create l elementsLimit).size = l.min := Array.size_replicate ..

/-- An instance begins within its limits. -/
theorem guards_of_allocate (hm : module.LimitsOrdered)
    (ha : allocate s module entities config = .ok a) : a.store.Guards a.inst := by
  have hlaid := laidOut_of_allocate ha
  have hkeeps := (appends_of_allocate ha).keeps
  have htable := fun (k : Nat) (l : Limits) => table_of_allocate ha (k := k) (l := l)
  have hmemory := fun (k : Nat) (l : Limits) => memory_of_allocate ha (k := k) (l := l)
  obtain ⟨⟨hcount, himports⟩, -, htables, hmemories⟩ := exists_allocate.mp ⟨a, ha⟩
  have h := accepts_of_checkImports (checkImports_eq_ok.mpr ⟨hcount, himports⟩)
  have horigin := hlaid.origin
  refine ⟨fun k l hl => ?_, fun k l hl => ?_, fun k imported l hk hl => ?_,
    fun k imported l hk hl => ?_⟩ <;> rw [horigin] at *
  · have hmem := List.mem_of_getElem? hl
    refine ⟨_, _, (hlaid.declaredTables k l hl).1, htable k l hl, rfl, ?_, ?_⟩
    · exact Nat.le_of_eq (Table.size_create ..).symm
    · refine Limits.le_top ?_ fun most hmost => ?_
      all_goals refine Nat.le_trans (Nat.le_of_eq (Table.size_create ..)) ?_
      · exact htables l hmem
      · exact hm.1 l hmem most hmost
  · have hmem := List.mem_of_getElem? hl
    refine ⟨_, _, (hlaid.declaredMemories k l hl).1, hmemory k l hl, ⟨rfl, ?_, ?_⟩, ?_⟩
    · exact Nat.le_of_eq (Memory.pages_create ..).symm
    · refine Limits.le_top ?_ fun most hmost => ?_
      all_goals refine Nat.le_trans (Nat.le_of_eq (Memory.pages_create ..)) ?_
      · exact hmemories l hmem
      · exact hm.2 l hmem most hmost
    · unfold Memory.create Memory.size
      rw [size_zeros]
      exact Nat.dvd_mul_left ..
  · obtain ⟨e, he, haccepts⟩ := accepts_of_getElem? h hk
    rw [← hlaid.importedTables] at he
    obtain ⟨b, hb, rfl⟩ := getElem?_of_map_take he
    cases haccepts with
    | table hi ht hwithin hadmits =>
      obtain rfl := EntityType.table.inj (hl.symm.trans hi)
      obtain ⟨t', ht', hgrows⟩ := hkeeps.tables b _ ht
      exact ⟨b, t', hb, ht', Extent.Serves.of_grows ⟨hwithin, hadmits⟩ hgrows.extent⟩
  · obtain ⟨e, he, haccepts⟩ := accepts_of_getElem? h hk
    rw [← hlaid.importedMemories] at he
    obtain ⟨b, hb, rfl⟩ := getElem?_of_map_take he
    cases haccepts with
    | memory hi hx hwithin hadmits =>
      obtain rfl := EntityType.memory.inj (hl.symm.trans hi)
      obtain ⟨x', hx', hgrows⟩ := hkeeps.memories b _ hx
      exact ⟨b, x', hb, hx', Extent.Serves.of_grows ⟨hwithin, hadmits⟩ hgrows.extent⟩

end

section
variable {env : Environment} {s s' : Store} {m m' : Machine}

/-- A change leaves all instances within their limits. -/
theorem withinLimits_of_change (hc : s.Change Module.LimitsOrdered s') (h : s.WithinLimits) :
    s'.WithinLimits := by
  have hkeeps := hc.keeps
  -- all instances were there before, but for the one that is linked
  have hold : s'.instances = s.instances → s'.WithinLimits := by
    intro hinstances id i hi
    rw [hinstances] at hi
    exact (h id i hi).of_keeps hkeeps (.refl i)
  cases hc with
  | write hshape =>
    intro id i hi
    have hid := congrArg (fun l : Array ModuleInstance => l[id]?) hshape.instances
    rw [Array.getElem?_map, Array.getElem?_map, hi] at hid
    obtain ⟨j, hj, hstays⟩ := Option.map_eq_some_iff.mp hid.symm
    exact (h id j hj).of_keeps hkeeps hstays.symm
  | growMemory a delta =>
    refine hold ?_
    unfold Store.growMemory
    split <;> rfl
  | growTable a delta =>
    refine hold ?_
    unfold Store.growTable
    split <;> rfl
  | addMemory x => exact hold rfl
  | addTable t => exact hold rfl
  | addGlobal g => exact hold rfl
  | @link module entities config a hm ha =>
    intro id i hi
    rw [(id_of_allocate ha).2, Array.getElem?_push] at hi
    split at hi
    · obtain rfl := Option.some.inj hi
      exact guards_of_allocate hm ha
    · exact (h id i hi).of_keeps hkeeps (.refl i)

/-- So does whatever becomes of a store. -/
theorem withinLimits_of_leadsTo (hs : s.LeadsTo Module.LimitsOrdered s') (h : s.WithinLimits) :
    s'.WithinLimits := by
  induction hs with
  | refl => exact h
  | tail _ hc ih => exact withinLimits_of_change hc ih

/-- A move is made of changes. -/
theorem Move.leadsTo (henv : env.Orderly Module.LimitsOrdered) (h : Move env m m') :
    m.store.LeadsTo Module.LimitsOrdered m'.store := by
  cases h with
  | change hc => exact hc.leadsTo
  | instantiate hm hi => exact instantiate_leadsTo (fun _ _ => henv) hm hi
  | execute hx => exact execute_leadsTo henv hx
  | visit hv => exact (observe_follows henv _ _ _ _ m).visits _ hv
  | host hn => exact programMachines_leadsTo henv _ (henv _ _ m) _ hn

theorem Machine.Reaches.leadsTo (henv : env.Orderly Module.LimitsOrdered)
    (h : m.Reaches env m') : m.store.LeadsTo Module.LimitsOrdered m'.store := by
  induction h with
  | refl => exact .refl _ m.store
  | tail _ hmove ih => exact ih.trans (hmove.leadsTo henv)

end

/-- The memory is within the limits that its module declares for it. -/
structure Memory.WithinOwn (x : Memory) (l : Limits) : Prop where
  whole : pageSize ∣ x.size
  maxPages : x.maxPages = l.top (min x.pagesLimit addressablePages)
  min : l.min ≤ x.pages
  max : x.pages ≤ x.maxPages

/-- The table is within the limits that its module declares for it. -/
structure Table.WithinOwn (t : Table) (l : Limits) : Prop where
  min : l.min ≤ t.size
  max : t.size ≤ l.top t.elementsLimit

/-- All memories and tables of an instance are within the limits that its module declares for them,
its own and those that it imports. -/
structure Store.HoldsLimits (s : Store) (i : ModuleInstance) : Prop where
  ownMemories : ∀ (k : Nat) (l : Limits), i.module.memories[k]? = some l →
    ∃ a x, i.memories[i.module.importCount .memory + k]? = some a ∧ s.memories[a]? = some x ∧
      x.WithinOwn l
  ownTables : ∀ (k : Nat) (l : Limits), i.module.tables[k]? = some l →
    ∃ a t, i.tables[i.module.importCount .table + k]? = some a ∧ s.tables[a]? = some t ∧
      t.WithinOwn l
  importedMemories : ∀ (k : Nat) (imported : Import) (l : Limits),
    (i.module.importsOf .memory)[k]? = some imported → imported.type = .memory l →
      ∃ a x, i.memories[k]? = some a ∧ s.memories[a]? = some x ∧ l.Bounds x.pages
  importedTables : ∀ (k : Nat) (imported : Import) (l : Limits),
    (i.module.importsOf .table)[k]? = some imported → imported.type = .table l →
      ∃ a t, i.tables[k]? = some a ∧ s.tables[a]? = some t ∧ l.Bounds t.size

/-- The memories and tables that the module of an instance declares have the ceilings of the
configuration. -/
structure Store.HasCeilings (s : Store) (config : EngineConfig) (i : ModuleInstance) : Prop where
  memories : ∀ (k : Nat) (l : Limits), i.module.memories[k]? = some l →
    ∃ a x, i.memories[i.module.importCount .memory + k]? = some a ∧ s.memories[a]? = some x ∧
      x.pagesLimit = config.pagesLimit
  tables : ∀ (k : Nat) (l : Limits), i.module.tables[k]? = some l →
    ∃ a t, i.tables[i.module.importCount .table + k]? = some a ∧ s.tables[a]? = some t ∧
      t.elementsLimit = config.elementsLimit

/-- Limits hold across sharing. In every state that moves lead to from one without instances, each
memory that an instance declares is of whole pages, and their number lies between its minimum and
the least of its maximum, the ceiling of the memory and the addressable number; the size of each
table that it declares lies between its minimum and the least of its maximum and the ceiling of the
table; and each table and memory that it imports has a size between the minimum and the maximum that
the import declares, whoever owns it and grew it. The ceilings are those that the module was
instantiated with. -/
theorem limits_hold_across_sharing (env : Environment) (henv : env.Orderly Module.LimitsOrdered)
    (m₀ m : Machine) (hstart : m₀.store.instances = #[]) (hm : m₀.Reaches env m) :
    (∀ (id : InstanceId) (i : ModuleInstance), m.store.instances[id]? = some i →
      m.store.HoldsLimits i) ∧
    ∀ (fuel : Nat) (module : Module) (entities : List Entity) (config : EngineConfig)
      (m₁ m₂ : Machine) (result : Except InstantiationError InstanceId),
      instantiate env fuel module entities config m₁ = some (result, m₂) →
        (∀ e, result ≠ .error (.link e)) → m₂.Reaches env m →
          ∃ i, m.store.instances[m₁.store.instances.size]? = some i ∧ i.module = module ∧
            m.store.HasCeilings config i := by
  refine ⟨fun id i hi => ?_, ?_⟩
  · have hempty : m₀.store.WithinLimits := by
      intro id i hi
      rw [hstart] at hi
      cases hi
    have hguards := withinLimits_of_leadsTo (hm.leadsTo henv) hempty id i hi
    refine ⟨fun k l hl => ?_, fun k l hl => ?_, fun k imported l hk hl => ?_,
      fun k imported l hk hl => ?_⟩
    · obtain ⟨a, x, ha, hx, hobeys, hpages⟩ := hguards.ownMemories k l hl
      have hmax : x.maxPages = l.top (min x.pagesLimit addressablePages) := by
        rw [← hobeys.limits]
        rfl
      exact ⟨a, x, ha, hx, hpages, hmax, hobeys.min, hmax ▸ hobeys.max⟩
    · obtain ⟨a, t, ha, ht, hobeys⟩ := hguards.ownTables k l hl
      exact ⟨a, t, ha, ht, hobeys.min, hobeys.max⟩
    · obtain ⟨a, x, ha, hx, hserves⟩ := hguards.importedMemories k imported l hk hl
      exact ⟨a, x, ha, hx, hserves.bounds⟩
    · obtain ⟨a, t, ha, ht, hserves⟩ := hguards.importedTables k imported l hk hl
      exact ⟨a, t, ha, ht, hserves.bounds⟩
  · intro fuel module entities config m₁ m₂ result hi hresult hlater
    obtain ⟨-, e, he⟩ | ⟨a, ha, -, hrest⟩ := instantiate_cases (fun _ _ => henv) hi
    · exact absurd he (hresult e)
    · obtain ⟨i, hat, -, hlaid⟩ := laidOut_of_keeps ha (hrest.trans (hlater.leadsTo henv)).keeps
      obtain rfl := hlaid.origin
      refine ⟨i, (id_of_allocate ha).1 ▸ hat, rfl, fun k l hl => ?_, fun k l hl => ?_⟩
      · obtain ⟨haddress, x, hx, -, hceiling⟩ := hlaid.declaredMemories k l hl
        exact ⟨_, x, haddress, hx, hceiling⟩
      · obtain ⟨haddress, t, ht, -, hceiling⟩ := hlaid.declaredTables k l hl
        exact ⟨_, t, haddress, ht, hceiling⟩

/-- A module that lends its table and its memory. -/
def lendingModule : Module where
  tables := [{ min := 1, max := some 3 }]
  memories := [{ min := 0, max := some 1 }]

/-- A module that imports them and a host function, through which it grows the table. -/
def growingModule : Module where
  types := [⟨[.i32], [.i32]⟩, ⟨[], [.i32]⟩]
  imports := [⟨"lender", "memory", .memory { min := 0, max := some 2 }⟩,
    ⟨"env", "grow", .function ⟨[.i32], [.i32]⟩⟩,
    ⟨"lender", "table", .table { min := 1, max := some 3 }⟩]
  functions := [{ type := 1, code := {
    instructions := #[.const .i32 1, .call 0, .end_], maxHeight := 1 } }]

theorem lent_entities_within_limits :
    let env : Environment := { host := fun _ => HostFunction.growTable }
    env.Orderly Module.LimitsOrdered ∧
      ∃ m, ({} : Machine).Reaches env m ∧ m.store.tables.map (·.size) = #[3] ∧
        ∃ (id : InstanceId) (i : ModuleInstance) (a : TableAddr) (t : Table) (b : MemoryAddr)
          (x : Memory), m.store.instances[id]? = some i ∧ i.module = growingModule ∧
            i.tables[0]? = some a ∧ m.store.tables[a]? = some t ∧ t.size ≤ 3 ∧
              i.memories[0]? = some b ∧ m.store.memories[b]? = some x ∧ x.pages ≤ 2 := by
  intro env
  have henv : env.Orderly Module.LimitsOrdered := Environment.Offered.orderly fun _ => .growTable
  have hlending : lendingModule.LimitsOrdered := by simp [Module.LimitsOrdered, lendingModule]
  have hgrowing : growingModule.LimitsOrdered := by simp [Module.LimitsOrdered, growingModule]
  let entities : List Entity :=
    [.memory (some 0), .function (.host 0 0) ⟨[.i32], [.i32]⟩, .table (some 0)]
  -- the embedder tries twice to grow the table once more, and grows the memory
  let grown (s : Store) : Store := ((s.growTable 0 1).2.growTable 0 1).2
  have hruns : ((instantiate env 10 lendingModule [] {} {}).bind fun e₁ =>
      (instantiate env 10 growingModule entities {} e₁.2).bind fun e₂ =>
        (execute env 10 ⟨1, 1⟩ [] e₂.2).map fun e₃ =>
          (e₂.1.isOk, e₃.1, ((grown e₃.2.store).growMemory 0 1).2.tables.map (·.size))) =
      some (true, .value 1, #[3]) := by decide +kernel
  obtain ⟨⟨result₁, m₁⟩, h₁, hruns⟩ := Option.bind_eq_some_iff.mp hruns
  obtain ⟨⟨result₂, m₂⟩, h₂, hruns⟩ := Option.bind_eq_some_iff.mp hruns
  obtain ⟨⟨result₃, m₃⟩, h₃, hruns⟩ := Option.map_eq_some_iff.mp hruns
  obtain ⟨hok, hruns⟩ := Prod.mk.inj hruns
  obtain ⟨-, hsizes⟩ := Prod.mk.inj hruns
  let m : Machine := { m₃ with store := ((grown m₃.store).growMemory 0 1).2 }
  have hchange : ∀ {n : Machine} {s : Store}, n.store.Change Module.LimitsOrdered s →
      n.Reaches env { n with store := s } := fun h => Relation.ReflTransGen.single (.change h)
  have hlater : m₂.Reaches env m :=
    (Relation.ReflTransGen.single (.execute h₃)).trans
      ((hchange (.growTable 0 1)).trans
        ((hchange (.growTable 0 1)).trans (hchange (.growMemory 0 1))))
  have hm : ({} : Machine).Reaches env m :=
    ((Relation.ReflTransGen.single (.instantiate hlending h₁)).tail
      (.instantiate hgrowing h₂)).trans hlater
  obtain ⟨hlimits, hceilings⟩ := limits_hold_across_sharing env henv {} m rfl hm
  obtain ⟨i, hi, horigin, -⟩ := hceilings _ _ _ _ _ _ _ h₂ (by
    rintro e rfl
    cases hok) hlater
  obtain ⟨-, -, hmemories, htables⟩ := hlimits _ i hi
  rw [horigin] at hmemories htables
  obtain ⟨a, t, ha, ht, hsize⟩ := htables 0 _ _ rfl rfl
  obtain ⟨b, x, hb, hx, hpages⟩ := hmemories 0 _ _ rfl rfl
  exact ⟨henv, m, hm, hsizes, _, i, a, t, b, x, hi, horigin, ha, ht, hsize.max 3 rfl, hb, hx,
    hpages.max 2 rfl⟩

end WasmEngine
