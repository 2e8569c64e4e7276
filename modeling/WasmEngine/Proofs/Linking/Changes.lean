import Mathlib.Logic.Relation
import WasmEngine.Proofs.Execution.Footprint
import WasmEngine.Proofs.Linking.Atomicity

/-!
# What becomes of a store

A store changes in four ways: something is written into it, a memory or a table grows, the embedder
adds an entity, or a module is linked. Whatever comes of it then, every entity and every instance
stays under its address. Entities keep their types and limits, and they grow within the limits or
not at all; of an instance nothing changes but the private states of its host functions.
-/
namespace WasmEngine
set_option autoImplicit false

/-- The callee without the private state of a host function. -/
def Callee.stateless : Callee → Callee
  | .guest target => .guest target
  | .host id _ => .host id 0

def FunctionBody.stateless : FunctionBody → FunctionBody
  | .imported callee => .imported callee.stateless
  | .defined code instrumented => .defined code instrumented

def FunctionInstance.stateless (f : FunctionInstance) : FunctionInstance :=
  { f with body := f.body.stateless }

/-- The instance without the private states of its host functions. -/
def ModuleInstance.stateless (i : ModuleInstance) : ModuleInstance :=
  { i with functions := i.functions.map FunctionInstance.stateless }

/-- What a memory has besides its bytes. -/
def Memory.shape (x : Memory) : Nat × Limits × Nat := (x.size, x.limits, x.pagesLimit)

/-- What a table has besides its elements. -/
def Table.shape (t : Table) : Nat × Limits × Nat := (t.size, t.limits, t.elementsLimit)

namespace Store

/-- The stores differ at most in what is written into them: bytes, elements, values of globals and
private states of host functions. -/
structure SameShape (s s' : Store) : Prop where
  memories : s'.memories.map Memory.shape = s.memories.map Memory.shape
  tables : s'.tables.map Table.shape = s.tables.map Table.shape
  globals : s'.globals.map Global.type = s.globals.map Global.type
  instances : s'.instances.map ModuleInstance.stateless = s.instances.map ModuleInstance.stateless

/-- A change of a store in which only modules with the property `P` are linked. -/
inductive Change (P : Module → Prop) (s : Store) : Store → Prop
  | write {s' : Store} (h : s.SameShape s') : Change P s s'
  | growMemory (a : MemoryAddr) (delta : Nat) : Change P s (s.growMemory a delta).2
  | growTable (a : TableAddr) (delta : Nat) : Change P s (s.growTable a delta).2
  | addMemory (x : Memory) : Change P s (s.addMemory x).2
  | addTable (t : Table) : Change P s (s.addTable t).2
  | addGlobal (g : Global) : Change P s (s.addGlobal g).2
  | link {module : Module} {entities : List Entity} {config : EngineConfig} {a : Allocation}
      (hm : P module) (ha : allocate s module entities config = .ok a) : Change P s a.store

/-- The one store comes from the other by changes. -/
def LeadsTo (P : Module → Prop) : Store → Store → Prop := Relation.ReflTransGen (Change P)

variable {P : Module → Prop} {s s' s'' : Store}

theorem LeadsTo.refl (P : Module → Prop) (s : Store) : s.LeadsTo P s := Relation.ReflTransGen.refl

theorem LeadsTo.trans (h : s.LeadsTo P s') (h' : s'.LeadsTo P s'') : s.LeadsTo P s'' :=
  Relation.ReflTransGen.trans h h'

theorem Change.leadsTo (h : s.Change P s') : s.LeadsTo P s' := Relation.ReflTransGen.single h

theorem SameShape.refl (s : Store) : s.SameShape s := ⟨rfl, rfl, rfl, rfl⟩

theorem SameShape.trans (h : s.SameShape s') (h' : s'.SameShape s'') : s.SameShape s'' where
  memories := h'.memories.trans h.memories
  tables := h'.tables.trans h.tables
  globals := h'.globals.trans h.globals
  instances := h'.instances.trans h.instances

theorem updateMemory_sameShape (s : Store) (a : MemoryAddr) {f : Memory → Memory}
    (hf : ∀ x, (f x).shape = x.shape) : s.SameShape (s.updateMemory a f) :=
  ⟨map_modify_of_eq hf s.memories a, rfl, rfl, rfl⟩

theorem updateTable_sameShape (s : Store) (a : TableAddr) {f : Table → Table}
    (hf : ∀ t, (f t).shape = t.shape) : s.SameShape (s.updateTable a f) :=
  ⟨rfl, map_modify_of_eq hf s.tables a, rfl, rfl⟩

theorem setGlobal_sameShape (s : Store) (a : GlobalAddr) (value : Cell) :
    s.SameShape (s.setGlobal a value) := by
  refine ⟨rfl, rfl, ?_, rfl⟩
  unfold setGlobal
  dsimp only
  rw [map_modify_of_eq]
  exact fun _ => rfl

theorem setHostState_sameShape (s : Store) (f : FunctionRef) (state : Nat) :
    s.SameShape (s.setHostState f state) := by
  refine ⟨rfl, rfl, rfl, ?_⟩
  unfold setHostState
  dsimp only
  rw [map_modify_of_eq]
  intro i
  unfold ModuleInstance.stateless
  dsimp only
  rw [map_modify_of_eq]
  rintro ⟨type, name, index, (next | ⟨id, old⟩) | ⟨code, instrumented⟩⟩ <;> rfl

end Store

theorem Memory.write_shape (x : Memory) (address width value : Nat) :
    (x.write address width value).shape = x.shape := by
  obtain ⟨hl, hp, hsize⟩ := x.write_keeps width address value
  unfold Memory.shape
  rw [hl, hp, hsize]

theorem Memory.writeBytes_shape (bytes : List UInt8) : ∀ (x : Memory) (address : Nat),
    (x.writeBytes address bytes).shape = x.shape := by
  induction bytes with
  | nil => exact fun _ _ => rfl
  | cons b rest ih =>
    intro x address
    rw [Memory.writeBytes, ih]
    exact congrArg (·, x.limits, x.pagesLimit) (ByteArray.size_set! ..)

theorem Table.write_shape (elements : List TableElement) : ∀ (t : Table) (index : Nat),
    (t.write index elements).shape = t.shape := by
  induction elements with
  | nil => exact fun _ _ => rfl
  | cons e rest ih =>
    intro t index
    rw [Table.write, ih]
    exact congrArg (·, t.limits, t.elementsLimit) Array.size_setIfInBounds

theorem Table.retain_shape (count : Nat) : ∀ (t : Table) (index : Nat),
    (t.retain index count).shape = t.shape := by
  induction count with
  | zero => exact fun _ _ => rfl
  | succ count ih =>
    intro t index
    rw [Table.retain, ih]
    exact congrArg (·, t.limits, t.elementsLimit) (Array.size_modify ..)

theorem sameShape_foldl {α : Type} {f : Store → α → Store}
    (hf : ∀ (s : Store) (x : α), s.SameShape (f s x)) (l : List α) (s : Store) :
    s.SameShape (l.foldl f s) :=
  List.foldlRecOn l f (.refl s) fun _ hs x _ => hs.trans (hf _ x)

/-- Segments are written into entities that keep their sizes. -/
theorem write_sameShape (p : Placement) (id : InstanceId) (memory : Option MemoryAddr)
    (table : Option TableAddr) (s : Store) : s.SameShape (p.write id memory table s) := by
  have hdata : ∀ (a : MemoryAddr) (s : Store),
      s.SameShape (p.data.foldl (fun s d => s.updateMemory a (·.writeBytes d.1 d.2)) s) :=
    fun a s => sameShape_foldl
      (fun s d => s.updateMemory_sameShape a fun x => x.writeBytes_shape d.2 d.1) p.data s
  have helements : ∀ (a : TableAddr) (s : Store), s.SameShape (p.elements.foldl (fun s e =>
      s.updateTable a (·.write e.1 (e.2.map fun f => { target := ⟨id, f⟩ }))) s) :=
    fun a s => sameShape_foldl (fun s e => s.updateTable_sameShape a fun t => t.write_shape _ _)
      p.elements s
  unfold Placement.write
  cases memory with
  | none =>
    cases table with
    | none => exact .refl s
    | some a => exact helements a s
  | some a =>
    cases table with
    | none => exact hdata a s
    | some b => exact (hdata a s).trans (helements b _)

theorem retain_sameShape (p : Placement) (table : Option TableAddr) (s : Store) :
    s.SameShape (p.retain table s) := by
  unfold Placement.retain
  cases table with
  | none => exact .refl s
  | some a =>
    exact sameShape_foldl (fun s e => s.updateTable_sameShape a fun t => t.retain_shape _ _)
      p.elements s

section
variable {P : Module → Prop} {obs : Observers} {i : InstanceId} {m m' : Machine}

/-- An instruction writes or grows memory 0. -/
theorem Effect.change (h : Effect obs i m m') : m.store.Change P m'.store := by
  cases h with
  | none => exact .write (.refl m.store)
  | access kind address width =>
    rw [reportAccess_store]
    exact .write (.refl m.store)
  | @write a address width value ha =>
    rw [Machine.updateStore, reportAccess_store]
    exact .write (m.store.updateMemory_sameShape a fun x => x.write_shape address width value)
  | @setGlobal index a value ha => exact .write (m.store.setGlobal_sameShape a value)
  | @grow a delta ha => exact .growMemory a delta

theorem turn_leadsTo (P : Module → Prop) (obs : Observers) (r : Running) (s : FrameState)
    (m : Machine) : m.store.LeadsTo P (turn obs r s m).machine.store := by
  obtain ⟨n, hn, h⟩ := turn_effect obs r s m
  rw [← hn]
  exact h.change.leadsTo

end

/-- Every entry of the one array has one in its place in the other that `R` relates it to. -/
def Persists {α : Type} (R : α → α → Prop) (l l' : Array α) : Prop :=
  ∀ (k : Nat) (x : α), l[k]? = some x → ∃ x', l'[k]? = some x' ∧ R x x'

namespace Persists

variable {α β : Type} {R : α → α → Prop} {l l' l'' : Array α}

theorem refl (hR : ∀ x, R x x) (l : Array α) : Persists R l l := fun _ x hx => ⟨x, hx, hR x⟩

theorem trans (hR : ∀ x x' x'', R x x' → R x' x'' → R x x'') (h : Persists R l l')
    (h' : Persists R l' l'') : Persists R l l'' := by
  intro k x hx
  obtain ⟨x', hx', hr⟩ := h k x hx
  obtain ⟨x'', hx'', hr'⟩ := h' k x' hx'
  exact ⟨x'', hx'', hR _ _ _ hr hr'⟩

theorem append (hR : ∀ x, R x x) (l l' : Array α) : Persists R l (l ++ l') := by
  intro k x hx
  obtain ⟨hk, -⟩ := Array.getElem?_eq_some_iff.mp hx
  exact ⟨x, (Array.getElem?_append_left hk).trans hx, hR x⟩

theorem push (hR : ∀ x, R x x) (l : Array α) (y : α) : Persists R l (l.push y) := by
  rw [Array.push_eq_append]
  exact append hR l #[y]

theorem of_map_eq {f : α → β} (hR : ∀ x x', f x' = f x → R x x') (h : l'.map f = l.map f) :
    Persists R l l' := by
  intro k x hx
  have hk : (l'.map f)[k]? = (l.map f)[k]? := by rw [h]
  rw [Array.getElem?_map, Array.getElem?_map, hx] at hk
  obtain ⟨x', hx', hf⟩ := Option.map_eq_some_iff.mp hk
  exact ⟨x', hx', hR x x' hf⟩

theorem modify (hR : ∀ x, R x x) {f : α → α} {a : Nat} (hf : ∀ x, l[a]? = some x → R x (f x)) :
    Persists R l (l.modify a f) := by
  intro k x hx
  rw [Array.getElem?_modify]
  split
  · next hak =>
    subst hak
    exact ⟨f x, by rw [hx, Option.map_some], hf x hx⟩
  · exact ⟨x, hx, hR x⟩

end Persists

/-- What may become of a memory: it grows in whole pages, and not above its ceiling. -/
structure Memory.Grows (x x' : Memory) : Prop where
  limits : x'.limits = x.limits
  pagesLimit : x'.pagesLimit = x.pagesLimit
  size : ∃ delta, x'.size = x.size + delta * pageSize
  bound : x'.pages = x.pages ∨ x'.pages ≤ x.maxPages

/-- What may become of a table: it grows, and not above its ceiling. -/
structure Table.Grows (t t' : Table) : Prop where
  limits : t'.limits = t.limits
  elementsLimit : t'.elementsLimit = t.elementsLimit
  size : t.size ≤ t'.size
  bound : t'.size = t.size ∨ t'.size ≤ t.maxSize

namespace Memory

theorem Grows.refl (x : Memory) : x.Grows x := ⟨rfl, rfl, ⟨0, by omega⟩, .inl rfl⟩

theorem Grows.trans {x x' x'' : Memory} (h : x.Grows x') (h' : x'.Grows x'') : x.Grows x'' := by
  have hmax : x'.maxPages = x.maxPages := by
    unfold maxPages
    rw [h.limits, h.pagesLimit]
  obtain ⟨delta, hsize⟩ := h.size
  obtain ⟨delta', hsize'⟩ := h'.size
  refine ⟨h'.limits.trans h.limits, h'.pagesLimit.trans h.pagesLimit,
    ⟨delta + delta', ?_⟩, ?_⟩
  · rw [hsize', hsize, Nat.add_mul, Nat.add_assoc]
  · rcases h'.bound with he | hle
    · rw [he]
      exact h.bound
    · exact .inr (hmax ▸ hle)

theorem grows_of_shape {x x' : Memory} (h : x'.shape = x.shape) : x.Grows x' := by
  obtain ⟨hsize, h⟩ := Prod.mk.inj h
  obtain ⟨hlimits, hpagesLimit⟩ := Prod.mk.inj h
  refine ⟨hlimits, hpagesLimit, ⟨0, by omega⟩, .inl ?_⟩
  unfold pages
  rw [hsize]

theorem size_extend (x : Memory) (delta : Nat) :
    (x.extend delta).size = x.size + delta * pageSize := by
  unfold extend size
  rw [ByteArray.size_append, size_zeros]

theorem pages_eq_add {x x' : Memory} {delta : Nat} (h : x'.size = x.size + delta * pageSize) :
    x'.pages = x.pages + delta := by
  unfold pages
  rw [h, Nat.add_mul_div_right _ _ (by decide)]

theorem grows_extend {x : Memory} {delta : Nat} (h : x.canGrow delta = true) :
    x.Grows (x.extend delta) := by
  refine ⟨rfl, rfl, ⟨delta, x.size_extend delta⟩, .inr ?_⟩
  rw [pages_eq_add (x.size_extend delta)]
  exact of_decide_eq_true h

end Memory

namespace Table

theorem Grows.refl (t : Table) : t.Grows t := ⟨rfl, rfl, Nat.le_refl _, .inl rfl⟩

theorem Grows.trans {t t' t'' : Table} (h : t.Grows t') (h' : t'.Grows t'') : t.Grows t'' := by
  have hmax : t'.maxSize = t.maxSize := by
    unfold maxSize
    rw [h.limits, h.elementsLimit]
  refine ⟨h'.limits.trans h.limits, h'.elementsLimit.trans h.elementsLimit,
    Nat.le_trans h.size h'.size, ?_⟩
  rcases h'.bound with he | hle
  · rw [he]
    exact h.bound
  · exact .inr (hmax ▸ hle)

theorem grows_of_shape {t t' : Table} (h : t'.shape = t.shape) : t.Grows t' := by
  obtain ⟨hsize, h⟩ := Prod.mk.inj h
  obtain ⟨hlimits, helementsLimit⟩ := Prod.mk.inj h
  exact ⟨hlimits, helementsLimit, Nat.le_of_eq hsize.symm, .inl hsize⟩

theorem grows_extend {t : Table} {delta : Nat} (h : t.canGrow delta = true) :
    t.Grows (t.extend delta) := by
  have hsize : (t.extend delta).size = t.size + delta := by
    unfold extend size
    rw [Array.size_append, Array.size_replicate]
  refine ⟨rfl, rfl, by omega, .inr ?_⟩
  rw [hsize]
  exact of_decide_eq_true h

end Table

/-- What may become of a global: another value of its type. -/
def Global.Stays (g g' : Global) : Prop := g'.type = g.type

/-- What may become of an instance: its host functions may have other private states. -/
def ModuleInstance.Stays (i i' : ModuleInstance) : Prop := i'.stateless = i.stateless

theorem Global.Stays.refl (g : Global) : g.Stays g := rfl

theorem ModuleInstance.Stays.refl (i : ModuleInstance) : i.Stays i := rfl

namespace Store

/-- What stays of a store, whatever becomes of it. -/
structure Keeps (s s' : Store) : Prop where
  memories : Persists Memory.Grows s.memories s'.memories
  tables : Persists Table.Grows s.tables s'.tables
  globals : Persists Global.Stays s.globals s'.globals
  instances : Persists ModuleInstance.Stays s.instances s'.instances

variable {P : Module → Prop} {s s' s'' : Store}

theorem Keeps.refl (s : Store) : s.Keeps s where
  memories := .refl Memory.Grows.refl _
  tables := .refl Table.Grows.refl _
  globals := .refl Global.Stays.refl _
  instances := .refl ModuleInstance.Stays.refl _

theorem Keeps.trans (h : s.Keeps s') (h' : s'.Keeps s'') : s.Keeps s'' where
  memories := h.memories.trans (fun _ _ _ => Memory.Grows.trans) h'.memories
  tables := h.tables.trans (fun _ _ _ => Table.Grows.trans) h'.tables
  globals := h.globals.trans (fun _ _ _ hg hg' => Eq.trans hg' hg) h'.globals
  instances := h.instances.trans (fun _ _ _ hi hi' => Eq.trans hi' hi) h'.instances

theorem growMemory_keeps (s : Store) (a : MemoryAddr) (delta : Nat) :
    s.Keeps (s.growMemory a delta).2 := by
  unfold growMemory
  split
  · next pages hgrow =>
    obtain ⟨x, hx, hcan⟩ := Option.map_eq_some_iff.mp hgrow
    obtain ⟨hcan, -⟩ := Prod.mk.inj hcan
    refine { Keeps.refl s with memories := .modify Memory.Grows.refl fun y hy => ?_ }
    obtain rfl := Option.some.inj (hx.symm.trans hy)
    exact Memory.grows_extend hcan
  · exact .refl s

theorem growTable_keeps (s : Store) (a : TableAddr) (delta : Nat) :
    s.Keeps (s.growTable a delta).2 := by
  unfold growTable
  split
  · next size hgrow =>
    obtain ⟨t, ht, hcan⟩ := Option.map_eq_some_iff.mp hgrow
    obtain ⟨hcan, -⟩ := Prod.mk.inj hcan
    refine { Keeps.refl s with tables := .modify Table.Grows.refl fun u hu => ?_ }
    obtain rfl := Option.some.inj (ht.symm.trans hu)
    exact Table.grows_extend hcan
  · exact .refl s

theorem SameShape.keeps (h : s.SameShape s') : s.Keeps s' where
  memories := .of_map_eq (fun _ _ => Memory.grows_of_shape) h.memories
  tables := .of_map_eq (fun _ _ => Table.grows_of_shape) h.tables
  globals := .of_map_eq (fun _ _ hg => hg) h.globals
  instances := .of_map_eq (fun _ _ hi => hi) h.instances

theorem Appends.keeps (h : s.Appends s') : s.Keeps s' := by
  obtain ⟨memories, tables, globals, instances, rfl⟩ := h
  exact ⟨.append Memory.Grows.refl _ _, .append Table.Grows.refl _ _, .append Global.Stays.refl _ _,
    .append ModuleInstance.Stays.refl _ _⟩

/-- No change takes anything away. -/
theorem Change.keeps (h : s.Change P s') : s.Keeps s' := by
  cases h with
  | write h => exact h.keeps
  | growMemory a delta => exact s.growMemory_keeps a delta
  | growTable a delta => exact s.growTable_keeps a delta
  | addMemory x => exact { Keeps.refl s with memories := .push Memory.Grows.refl _ x }
  | addTable t => exact { Keeps.refl s with tables := .push Table.Grows.refl _ t }
  | addGlobal g => exact { Keeps.refl s with globals := .push Global.Stays.refl _ g }
  | link hm ha => exact (appends_of_allocate ha).keeps

theorem LeadsTo.keeps (h : s.LeadsTo P s') : s.Keeps s' := by
  induction h with
  | refl => exact .refl s
  | tail _ hc ih => exact ih.trans hc.keeps

end Store

end WasmEngine
