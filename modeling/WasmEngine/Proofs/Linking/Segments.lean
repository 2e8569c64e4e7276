import WasmEngine.Proofs.Linking.Atomicity
import WasmEngine.Proofs.Linking.ConstantExpression
import WasmEngine.Proofs.Linking.IndexSpaces
import WasmEngine.Proofs.Store.Contents

/-!
# Initialization by segments

The segments of a module are written in order, so where they overlap the last one counts. What is
left in a memory or a table is described place by place: the item of the last segment that covers
the place, and what was there before if none does.
-/
namespace WasmEngine
set_option autoImplicit false

section
variable {α β : Type} {segments : List (Nat × List β)} {s : Nat × List β} {k : Nat} {b : β}

/-- The item that a segment has for a place. -/
def segmentItem? (s : Nat × List β) (k : Nat) : Option β :=
  if s.1 ≤ k then s.2[k - s.1]? else none

/-- The item of the last segment that covers a place. -/
def lastItem? (segments : List (Nat × List β)) (k : Nat) : Option β :=
  segments.reverse.findSome? (segmentItem? · k)

/-- A segment covers as many places as it has items. -/
theorem segmentItem?_eq_none_iff :
    segmentItem? s k = none ↔ ¬(s.1 ≤ k ∧ k < s.1 + s.2.length) := by
  unfold segmentItem?
  split
  · rw [List.getElem?_eq_none_iff]
    omega
  · next hk => exact ⟨fun _ h => hk h.1, fun _ => rfl⟩

theorem lastItem?_eq_none_iff :
    lastItem? segments k = none ↔ ∀ s ∈ segments, ¬(s.1 ≤ k ∧ k < s.1 + s.2.length) := by
  unfold lastItem?
  rw [List.findSome?_eq_none_iff]
  simp only [List.mem_reverse, segmentItem?_eq_none_iff]

/-- No segment behind the one whose item counts covers the place. -/
theorem lastItem?_eq_some_iff :
    lastItem? segments k = some b ↔ ∃ before s after, segments = before ++ s :: after ∧
      s.1 ≤ k ∧ s.2[k - s.1]? = some b ∧ ∀ t ∈ after, ¬(t.1 ≤ k ∧ k < t.1 + t.2.length) := by
  have hitem : ∀ s : Nat × List β,
      segmentItem? s k = some b ↔ s.1 ≤ k ∧ s.2[k - s.1]? = some b := by
    intro s
    unfold segmentItem?
    split
    · next hk => exact ⟨fun h => ⟨hk, h⟩, fun h => h.2⟩
    · next hk => exact ⟨nofun, fun h => absurd h.1 hk⟩
  unfold lastItem?
  rw [List.findSome?_eq_some_iff]
  constructor
  · rintro ⟨after, s, before, hsegments, hs, hafter⟩
    obtain ⟨hk, hb⟩ := (hitem s).mp hs
    refine ⟨before.reverse, s, after.reverse, ?_, hk, hb, fun t ht => ?_⟩
    · rw [← List.reverse_reverse segments, hsegments]
      simp
    · exact segmentItem?_eq_none_iff.mp (hafter t (List.mem_reverse.mp ht))
  · rintro ⟨before, s, after, rfl, hk, hb, hafter⟩
    refine ⟨after.reverse, s, before.reverse, by simp, (hitem s).mpr ⟨hk, hb⟩, fun t ht => ?_⟩
    exact segmentItem?_eq_none_iff.mpr (hafter t (List.mem_reverse.mp ht))

theorem lastItem?_cons : lastItem? (s :: segments) k = (lastItem? segments k).or (segmentItem? s k) := by
  unfold lastItem?
  rw [List.reverse_cons, List.findSome?_append, List.findSome?_singleton]

/-- To put the items of one segment after another into a place is to put the last one. -/
theorem foldl_segmentItem? (put : β → α) (segments : List (Nat × List β)) (k : Nat) :
    ∀ old : α, segments.foldl (fun old s => (segmentItem? s k).elim old put) old =
      (lastItem? segments k).elim old put := by
  induction segments with
  | nil => exact fun _ => rfl
  | cons s rest ih =>
    intro old
    rw [List.foldl_cons, ih, lastItem?_cons]
    cases lastItem? rest k <;> rfl

end

section
variable {σ α β : Type} {step : σ → β → σ} {f : α → β → α}

/-- What is read of a state is changed by steps in order, if each step changes it on its own. -/
theorem foldl_read (read : σ → Option α) (h : ∀ s b, read (step s b) = (read s).map (f · b))
    (l : List β) : ∀ s, read (l.foldl step s) = (read s).map fun x => l.foldl f x := by
  induction l with
  | nil => exact fun s => Option.map_id'.symm
  | cons b rest ih =>
    intro s
    rw [List.foldl_cons, ih, h, Option.map_map]
    rfl

/-- What no step changes is kept. -/
theorem foldl_kept (read : σ → α) (h : ∀ s b, read (step s b) = read s) (l : List β) (s : σ) :
    read (l.foldl step s) = read s :=
  List.foldlRecOn l step (motive := fun s' => read s' = read s) rfl
    fun s' hs b _ => (h s' b).trans hs

/-- Steps that change one entry change it in order. -/
theorem foldl_modify (f : α → β → α) (a : Nat) (l : List β) (entries : Array α) :
    l.foldl (fun entries b => entries.modify a (f · b)) entries =
      entries.modify a fun x => l.foldl f x := by
  apply Array.ext_getElem?
  intro k
  have hread : ∀ (entries : Array α) b, (entries.modify a (f · b))[k]? =
      (entries[k]?).map fun x => if a = k then f x b else x := by
    intro entries b
    rw [Array.getElem?_modify]
    split
    · rfl
    · exact Option.map_id'.symm
  rw [foldl_read (·[k]?) hread, Array.getElem?_modify]
  split
  · rfl
  · simp only [List.foldl_fixed, Option.map_id']

end

namespace Memory

variable (x : Memory)

/-- The byte at an address that the memory has. -/
def byte? (k : Nat) : Option UInt8 := if k < x.size then some (x.byte k) else none

theorem byte?_eq_some {k : Nat} (h : k < x.size) : x.byte? k = some (x.byte k) := if_pos h

theorem byte?_writeBytes (s : Nat × List UInt8) (k : Nat) :
    (x.writeBytes s.1 s.2).byte? k = (x.byte? k).map fun old => (segmentItem? s k).elim old id := by
  have hsize : (x.writeBytes s.1 s.2).size = x.size := congrArg Prod.fst (x.writeBytes_shape s.2 s.1)
  unfold byte? segmentItem?
  rw [hsize, byte_writeBytes]
  by_cases hk : k < x.size
  · rw [if_pos hk, if_pos hk, Option.map_some]
    by_cases hs : s.1 ≤ k
    · rw [if_pos ⟨hs, hk⟩, if_pos hs]
      cases s.2[k - s.1]? <;> rfl
    · rw [if_neg fun h => hs h.1, if_neg hs]
      rfl
  · rw [if_neg hk, if_neg hk]
    rfl

/-- The segments laid over a memory. -/
def overlay (x : Memory) (segments : List (Nat × List UInt8)) : Memory :=
  segments.foldl (fun x s => x.writeBytes s.1 s.2) x

theorem overlay_shape (segments : List (Nat × List UInt8)) : (x.overlay segments).shape = x.shape := by
  refine foldl_kept Memory.shape ?_ segments x
  exact fun x s => x.writeBytes_shape s.2 s.1

/-- Of the segments laid over a memory the last one that covers an address counts. -/
theorem byte_overlay (segments : List (Nat × List UInt8)) {k : Nat} (hk : k < x.size) :
    (x.overlay segments).byte k = (lastItem? segments k).getD (x.byte k) := by
  have hsize : (x.overlay segments).size = x.size := congrArg Prod.fst (x.overlay_shape segments)
  have hread : (x.overlay segments).byte? k = _ :=
    foldl_read (·.byte? k) (fun x s => x.byte?_writeBytes s k) segments x
  rw [byte?_eq_some _ (hsize ▸ hk), byte?_eq_some x hk, Option.map_some, foldl_segmentItem?] at hread
  rw [Option.some.inj hread]
  cases lastItem? segments k <;> rfl

end Memory

namespace Table

variable (t : Table) (id : InstanceId)

/-- The segments laid over a table, their functions being those of the instance `id`. -/
def overlay (t : Table) (id : InstanceId) (segments : List (Nat × List Nat)) : Table :=
  segments.foldl (fun t s => t.write s.1 (s.2.map fun f => { target := ⟨id, f⟩ })) t

theorem overlay_shape (segments : List (Nat × List Nat)) : (t.overlay id segments).shape = t.shape := by
  refine foldl_kept Table.shape ?_ segments t
  exact fun t s => t.write_shape _ s.1

/-- Of the segments laid over a table the last one that covers a slot counts. -/
theorem getElem?_overlay (segments : List (Nat × List Nat)) (k : Nat) :
    (t.overlay id segments).elements[k]? = (t.elements[k]?).map fun old =>
      (lastItem? segments k).elim old fun f => some { target := ⟨id, f⟩ } := by
  have hstep : ∀ (t : Table) (s : Nat × List Nat),
      (t.write s.1 (s.2.map fun f => { target := ⟨id, f⟩ })).elements[k]? = (t.elements[k]?).map
        fun old => (segmentItem? s k).elim old fun f => some { target := ⟨id, f⟩ } := by
    intro t s
    rw [getElem?_write]
    refine Option.map_congr fun old _ => ?_
    unfold segmentItem?
    rw [List.getElem?_map]
    split
    · cases s.2[k - s.1]? <;> rfl
    · rfl
  refine (foldl_read (fun t : Table => t.elements[k]?) hstep segments t).trans ?_
  simp only [foldl_segmentItem?]

end Table

section
variable (p : Placement) (id : InstanceId) (memory : Option MemoryAddr) (table : Option TableAddr)
  (s : Store)

/-- The segments are laid over one memory and one table, and nothing else is changed. -/
theorem write_eq : p.write id memory table s = { s with
    memories := memory.elim s.memories fun a => s.memories.modify a (·.overlay p.data)
    tables := table.elim s.tables fun a => s.tables.modify a (·.overlay id p.elements) } := by
  have hdata : ∀ a (s : Store), p.data.foldl (fun s d => s.updateMemory a (·.writeBytes d.1 d.2)) s =
      { s with memories := s.memories.modify a (·.overlay p.data) } := fun a s =>
    (List.foldl_hom (fun memories => { s with memories }) fun _ _ => rfl).trans
      (congrArg (fun memories => { s with memories }) (foldl_modify _ a p.data s.memories))
  have helements : ∀ a (s : Store), p.elements.foldl (fun s e =>
      s.updateTable a (·.write e.1 (e.2.map fun f => { target := ⟨id, f⟩ }))) s =
        { s with tables := s.tables.modify a (·.overlay id p.elements) } := fun a s =>
    (List.foldl_hom (fun tables => { s with tables }) fun _ _ => rfl).trans
      (congrArg (fun tables => { s with tables }) (foldl_modify _ a p.elements s.tables))
  unfold Placement.write
  cases memory with
  | none =>
    cases table with
    | none => rfl
    | some a => exact helements a s
  | some a =>
    dsimp only
    rw [hdata]
    cases table with
    | none => rfl
    | some b => exact helements b _

end

section
variable {α : Type} (entries : Array α) (a : Option Nat) (f : α → α)

theorem getElem?_elim_modify (b : Nat) :
    (a.elim entries fun a => entries.modify a f)[b]? =
      (entries[b]?).map fun x => if a = some b then f x else x := by
  cases a with
  | none => exact Option.map_id'.symm
  | some a =>
    simp only [Option.elim_some, Array.getElem?_modify, Option.some.injEq]
    split
    · rfl
    · exact Option.map_id'.symm

theorem size_elim_modify : (a.elim entries fun a => entries.modify a f).size = entries.size := by
  cases a with
  | none => rfl
  | some a => exact Array.size_modify

end

namespace Store

variable (s : Store)

/-- The byte that a memory of the store holds at an address, zero where there is none. -/
def byteAt (b : MemoryAddr) (k : Nat) : UInt8 := (s.memories[b]?).elim 0 (·.byte k)

/-- The element that a table of the store holds in a slot, null where there is none. -/
def elementAt (b : TableAddr) (k : Nat) : Option TableElement :=
  (s.tables[b]?).bind fun t => t.elements[k]?.join

end Store

namespace Module

variable (module : Module) (s : Store) (entities : List Entity) (config : EngineConfig)

/-- The memories of the store and, behind them, those that the module declares. -/
def memoriesWith : Array Memory :=
  s.memories ++ (module.memories.map (Memory.create · config.pagesLimit)).toArray

/-- The tables of the store and, behind them, those that the module declares. -/
def tablesWith : Array Table :=
  s.tables ++ (module.tables.map (Table.create · config.elementsLimit)).toArray

/-- Where memory 0 of a new instance is: the first imported memory or the first declared one. -/
def firstMemory? : Option MemoryAddr :=
  (entities.filterMap Entity.memoryAddr? ++
    List.range' s.memories.size module.memories.length).head?

/-- Where table 0 of a new instance is: the first imported table or the first declared one. -/
def firstTable? : Option TableAddr :=
  (entities.filterMap Entity.tableAddr? ++ List.range' s.tables.size module.tables.length).head?

/-- Every check of an instantiation passes, those of the room for segments apart. -/
structure Checks : Prop where
  count : entities.length = module.imports.length
  imports : ∀ e ∈ module.imports.zip entities, e.1.check s e.2 = .ok ()
  globals : ∀ g ∈ module.globals, ∃ c,
    evalConstant (importedGlobals s entities) g.type.valType g.init = .ok c
  tables : ∀ l ∈ module.tables, l.min ≤ config.elementsLimit
  memories : ∀ l ∈ module.memories, l.min ≤ min config.pagesLimit addressablePages
  dataOffsets : ∀ d ∈ module.data, ∃ c,
    evalConstant (importedGlobals s entities) .i32 d.offset = .ok c
  elementOffsets : ∀ e ∈ module.elements, ∃ c,
    evalConstant (importedGlobals s entities) .i32 e.offset = .ok c

/-- There is room for all segments, also for empty ones: a memory 0 for data and a table 0 for
elements, in which each of them ends at the latest where these end. -/
structure HasRoom : Prop where
  data : ∀ d ∈ module.data, ∀ c, evalConstant (importedGlobals s entities) .i32 d.offset = .ok c →
    ∃ size, module.memorySize? s entities = some size ∧ c.toNat + d.bytes.length ≤ size
  elements : ∀ e ∈ module.elements, ∀ c,
    evalConstant (importedGlobals s entities) .i32 e.offset = .ok c →
      ∃ size, module.tableSize? s entities = some size ∧ c.toNat + e.functions.length ≤ size

end Module

/-- The store `s'` is the store `s` with a new instance of the module, and what the segments of the
module write is all that was written. -/
structure Store.Filled (s : Store) (module : Module) (entities : List Entity) (config : EngineConfig)
    (id : InstanceId) (s' : Store) : Prop where
  inst : id = s.instances.size ∧ ∃ i, s'.instances = s.instances.push i ∧ i.module = module
  memory : s'.memoryOf? id = module.firstMemory? s entities
  table : s'.tableOf? id = module.firstTable? s entities
  contents : ∃ p : Placement, p.Follows module (Module.importedGlobals s entities) ∧
    (∀ b, s'.memoryOf? id = some b → ∃ x', s'.memories[b]? = some x' ∧
      ∀ k < x'.size, x'.byte k = (lastItem? p.data k).getD (s.byteAt b k)) ∧
    ∀ b, s'.tableOf? id = some b → ∃ t', s'.tables[b]? = some t' ∧
      ∀ k < t'.size, t'.elements[k]? = some ((lastItem? p.elements k).elim (s.elementAt b k)
        fun f => some { target := ⟨id, f⟩ })
  memories : s'.memories.size = (module.memoriesWith s config).size ∧
    ∀ (b : MemoryAddr) x, (module.memoriesWith s config)[b]? = some x →
      ∃ x', s'.memories[b]? = some x' ∧ x'.shape = x.shape ∧ (s'.memoryOf? id ≠ some b → x' = x)
  tables : s'.tables.size = (module.tablesWith s config).size ∧
    ∀ (b : TableAddr) t, (module.tablesWith s config)[b]? = some t →
      ∃ t', s'.tables[b]? = some t' ∧ t'.shape = t.shape ∧ (s'.tableOf? id ≠ some b → t' = t)
  globals : ∀ (b : GlobalAddr) g, s.globals[b]? = some g → s'.globals[b]? = some g

section
variable {s : Store} {module : Module} {entities : List Entity} {config : EngineConfig}

/-- What a memory holds that was there or is new. -/
theorem byte_memoriesWith {b : MemoryAddr} {x : Memory}
    (h : (module.memoriesWith s config)[b]? = some x) (k : Nat) : x.byte k = s.byteAt b k := by
  unfold Module.memoriesWith at h
  unfold Store.byteAt
  rw [Array.getElem?_append] at h
  split at h
  · rw [h, Option.elim_some]
  · next hb =>
    rw [Array.getElem?_eq_none (Nat.not_lt.mp hb), Option.elim_none]
    rw [List.getElem?_toArray, List.getElem?_map] at h
    obtain ⟨l, -, rfl⟩ := Option.map_eq_some_iff.mp h
    exact Memory.byte_create l config.pagesLimit k

theorem elements_tablesWith {b : TableAddr} {t : Table}
    (h : (module.tablesWith s config)[b]? = some t) {k : Nat} (hk : k < t.size) :
    t.elements[k]? = some (s.elementAt b k) := by
  unfold Module.tablesWith at h
  unfold Store.elementAt
  have hget : t.elements[k]? = some t.elements[k] := Array.getElem?_eq_getElem hk
  rw [Array.getElem?_append] at h
  split at h
  · rw [h, Option.bind_some, hget, Option.join_some]
  · next hb =>
    rw [Array.getElem?_eq_none (Nat.not_lt.mp hb), Option.bind_none]
    rw [List.getElem?_toArray, List.getElem?_map] at h
    obtain ⟨l, -, rfl⟩ := Option.map_eq_some_iff.mp h
    rw [hget]
    exact congrArg some (Array.getElem_replicate _)

/-- Where an allocation puts the entities that the module declares. -/
theorem spaces_of_allocate {a : Allocation} (ha : allocate s module entities config = .ok a) :
    a.store.memories = module.memoriesWith s config ∧
      a.store.tables = module.tablesWith s config ∧
      a.inst.memories.head? = module.firstMemory? s entities ∧
      a.inst.tables.head? = module.firstTable? s entities := by
  obtain ⟨-, globals, tables, memories, -, ht, hm, rfl⟩ := allocate_eq_ok.mp ha
  obtain rfl := newTables_eq ht
  obtain rfl := newMemories_eq hm
  refine ⟨rfl, rfl, ?_, ?_⟩
  · dsimp only [allocationOf, bareInstance, Module.firstMemory?]
    rw [List.length_map]
  · dsimp only [allocationOf, bareInstance, Module.firstTable?]
    rw [List.length_map]

/-- The first entry of a list of addresses below the new ones, then of the new ones. -/
theorem lt_of_head?_append_range' {l : List Nat} {size n b : Nat} (hl : ∀ a ∈ l, a < size)
    (h : (l ++ List.range' size n).head? = some b) : b < size + n := by
  obtain hb | hb := List.mem_append.mp (List.mem_of_head? h)
  · exact Nat.lt_add_right n (hl b hb)
  · exact (List.mem_range'_1.mp hb).2

theorem exists_firstMemory (config : EngineConfig) (hi : module.checkImports s entities = .ok ())
    {b : MemoryAddr} (h : module.firstMemory? s entities = some b) :
    ∃ x, (module.memoriesWith s config)[b]? = some x := by
  have hb := lt_of_head?_append_range' (fun _ ha => lt_of_mem_memoryAddr hi ha) h
  exact ⟨_, Array.getElem?_eq_getElem (by simpa [Module.memoriesWith] using hb)⟩

theorem exists_firstTable (config : EngineConfig) (hi : module.checkImports s entities = .ok ())
    {b : TableAddr} (h : module.firstTable? s entities = some b) :
    ∃ t, (module.tablesWith s config)[b]? = some t := by
  have hb := lt_of_head?_append_range' (fun _ ha => lt_of_mem_tableAddr hi ha) h
  exact ⟨_, Array.getElem?_eq_getElem (by simpa [Module.tablesWith] using hb)⟩

/-- The segments of a new instance, written where they have their places, fill its store. -/
theorem filled_of_place {a : Allocation} {p : Placement}
    (ha : allocate s module entities config = .ok a)
    (hp : a.place (Module.importedGlobals s entities) = .ok p) :
    s.Filled module entities config a.id
      (p.write a.id a.inst.memories.head? a.inst.tables.head? a.store) := by
  obtain ⟨hmemories, htables, hmemory, htable⟩ := spaces_of_allocate ha
  obtain ⟨hid, hinstances⟩ := id_of_allocate ha
  have hi := (allocate_eq_ok.mp ha).1
  have hglobals : ∀ (b : GlobalAddr) g, s.globals[b]? = some g → a.store.globals[b]? = some g := by
    obtain ⟨_, _, _, _, happends⟩ := appends_of_allocate ha
    intro b g hg
    rw [happends]
    exact (Array.getElem?_append_left (Array.getElem?_eq_some_iff.mp hg).1).trans hg
  have hinst : a.store.instances[a.id]? = some a.inst := by
    rw [hid, hinstances]
    exact Array.getElem?_push_size
  rw [write_eq, hmemories, htables, hmemory, htable]
  have hmemoryOf : (a.store.instances[a.id]?).bind (·.memories.head?) =
      module.firstMemory? s entities := by
    rw [hinst, Option.bind_some, hmemory]
  have htableOf : (a.store.instances[a.id]?).bind (·.tables.head?) =
      module.firstTable? s entities := by
    rw [hinst, Option.bind_some, htable]
  constructor
  · exact ⟨hid, a.inst, hinstances, inst_module_of_allocate ha⟩
  · exact hmemoryOf
  · exact htableOf
  · refine ⟨p, follows_of_place ha hp, fun b hb => ?_, fun b hb => ?_⟩
    · obtain hb : module.firstMemory? s entities = some b := hmemoryOf.symm.trans hb
      obtain ⟨x, hx⟩ := exists_firstMemory config hi hb
      refine ⟨x.overlay p.data, ?_, fun k hk => ?_⟩
      · rw [getElem?_elim_modify, hx, Option.map_some, if_pos hb]
      · have hsize : (x.overlay p.data).size = x.size := congrArg Prod.fst (x.overlay_shape p.data)
        rw [x.byte_overlay p.data (hsize ▸ hk), byte_memoriesWith hx]
    · obtain hb : module.firstTable? s entities = some b := htableOf.symm.trans hb
      obtain ⟨t, ht⟩ := exists_firstTable config hi hb
      refine ⟨t.overlay a.id p.elements, ?_, fun k hk => ?_⟩
      · rw [getElem?_elim_modify, ht, Option.map_some, if_pos hb]
      · have hsize : (t.overlay a.id p.elements).size = t.size :=
          congrArg Prod.fst (t.overlay_shape a.id p.elements)
        rw [t.getElem?_overlay, elements_tablesWith ht (hsize ▸ hk), Option.map_some]
  · refine ⟨size_elim_modify .., fun b x hx => ?_⟩
    refine ⟨_, by rw [getElem?_elim_modify, hx, Option.map_some], ?_, fun hb => if_neg ?_⟩
    · split
      · exact x.overlay_shape p.data
      · rfl
    · exact fun h => hb (hmemoryOf.trans h)
  · refine ⟨size_elim_modify .., fun b t ht => ?_⟩
    refine ⟨_, by rw [getElem?_elim_modify, ht, Option.map_some], ?_, fun hb => if_neg ?_⟩
    · split
      · exact t.overlay_shape a.id p.elements
      · rfl
    · exact fun h => hb (htableOf.trans h)
  · exact hglobals

/-- A module links exactly if the other checks pass and there is room for its segments. -/
theorem links_iff_checks :
    module.Links s entities config ↔ module.Checks s entities config ∧ module.HasRoom s entities := by
  constructor
  · rintro ⟨hcount, himports, hglobals, htables, hmemories, hdata, helements⟩
    refine ⟨⟨hcount, himports, hglobals, htables, hmemories, fun d hd => ?_, fun e he => ?_⟩,
      fun d hd c hc => ?_, fun e he c hc => ?_⟩
    · obtain ⟨c, -, hc, -⟩ := hdata d hd
      exact ⟨c, hc⟩
    · obtain ⟨c, -, hc, -⟩ := helements e he
      exact ⟨c, hc⟩
    · obtain ⟨c', size, hc', hroom⟩ := hdata d hd
      obtain rfl := Except.ok.inj (hc.symm.trans hc')
      exact ⟨size, hroom⟩
    · obtain ⟨c', size, hc', hroom⟩ := helements e he
      obtain rfl := Except.ok.inj (hc.symm.trans hc')
      exact ⟨size, hroom⟩
  · rintro ⟨h, hroom⟩
    refine ⟨h.count, h.imports, h.globals, h.tables, h.memories, fun d hd => ?_, fun e he => ?_⟩
    · obtain ⟨c, hc⟩ := h.dataOffsets d hd
      obtain ⟨size, hsize⟩ := hroom.data d hd c hc
      exact ⟨c, size, hc, hsize⟩
    · obtain ⟨c, hc⟩ := h.elementOffsets e he
      obtain ⟨size, hsize⟩ := hroom.elements e he c hc
      exact ⟨c, size, hc, hsize⟩

end

section
variable {imported : List Global} {e : ConstantExpression} {c : Cell}

theorem wellFormed_of_pushes {instr : Instruction} {t : ValType}
    (hconst : instr = .const t c → c.wellFormed t = true)
    (hglobals : ∀ g ∈ imported, g.type.valType = t → g.value.wellFormed t = true)
    (h : instr.Pushes imported t c) : c.wellFormed t = true := by
  cases h with
  | const => exact hconst rfl
  | globalGet hg => exact hglobals _ (List.mem_of_getElem? hg) rfl

/-- An i32 constant expression has a well-formed value, if the cells it is made from are. -/
theorem wellFormed_evalConstant (hconst : ∀ v, .const .i32 v ∈ e → v.wellFormed .i32 = true)
    (hglobals : ∀ g ∈ imported, g.type.valType = .i32 → g.value.wellFormed .i32 = true)
    (h : evalConstant imported .i32 e = .ok c) : c.wellFormed .i32 = true := by
  obtain ⟨instr, hbody, hpushes⟩ := ConstantExpression.eval_eq_ok_iff.mp h
  have hmem : instr ∈ e := List.mem_of_mem_filter (hbody ▸ List.mem_singleton_self instr)
  exact wellFormed_of_pushes (fun hinstr => hconst c (hinstr ▸ hmem)) hglobals hpushes

theorem Cell.toNat_eq_index (h : c.wellFormed .i32 = true) : c.toNat = c.index := by
  rw [wellFormed, decide_eq_true_iff] at h
  rw [index, low, BitVec.toNat_setWidth]
  exact (Nat.mod_eq_of_lt h).symm

/-- The number of a well-formed cell leaves room in a 64-bit sum. -/
theorem Cell.toNat_add (h : c.wellFormed .i32 = true) {count : Nat} (hcount : count < 2 ^ 63) :
    (c + BitVec.ofNat 64 count).toNat = c.toNat + count := by
  rw [wellFormed, decide_eq_true_iff] at h
  rw [BitVec.toNat_add, BitVec.toNat_ofNat]
  omega

end

section
variable {env : Environment} {fuel : Nat} {module : Module} {entities : List Entity}
  {config : EngineConfig} {m m' : Machine} {id : InstanceId}

/-- Without a start function an instance is made exactly if the module links. -/
theorem instantiate_succeeds_iff (hs : module.start = none) :
    (∃ id m', instantiate env fuel module entities config m = some (.ok id, m')) ↔
      module.Links m.store entities config := by
  rw [links_iff]
  constructor
  · rintro ⟨id, m', h⟩
    cases instantiate_ends h with
    | ready ha hp => exact ⟨_, _, ha, hp⟩
    | started ha hp => exact ⟨_, _, ha, hp⟩
  · rintro ⟨a, p, ha, hp⟩
    refine ⟨a.id, a.initialized config p m, ?_⟩
    unfold instantiate
    rw [ha]
    dsimp only
    rw [hp, hs]
    rfl

/-- Without a start function, what the segments wrote is all that was written. -/
theorem filled_of_instantiate (hs : module.start = none)
    (h : instantiate env fuel module entities config m = some (.ok id, m')) :
    m.store.Filled module entities config id m'.store := by
  cases instantiate_ends h with
  | ready ha hp => exact filled_of_place ha hp
  | started _ _ hs' => cases hs.symm.trans hs'

end

/-- How the segments of a module are written where it has no start function. The end of a segment is
a sum of 64-bit words, which does not wrap around for an offset in a well-formed cell. -/
structure SegmentsExact (env : Environment) (fuel : Nat) (module : Module) (entities : List Entity)
    (config : EngineConfig) (m : Machine) : Prop where
  filled : ∀ id m', instantiate env fuel module entities config m = some (.ok id, m') →
    m.store.Filled module entities config id m'.store
  succeeds : module.Checks m.store entities config →
    ((∃ id m', instantiate env fuel module entities config m = some (.ok id, m')) ↔
      module.HasRoom m.store entities)
  resolved : ∀ set id m', instantiateFrom env fuel module set config m = some (.ok id, m') →
    ∃ provided, module.resolveImports m.store set = .ok provided ∧
      m.store.Filled module provided config id m'.store
  offsets : ∀ e c, (∀ v, .const .i32 v ∈ e → v.wellFormed .i32 = true) →
    (∀ g ∈ Module.importedGlobals m.store entities, g.type.valType = .i32 →
      g.value.wellFormed .i32 = true) →
    evalConstant (Module.importedGlobals m.store entities) .i32 e = .ok c →
      c.toNat = c.index ∧
        ∀ count, count < 2 ^ 63 → (c + BitVec.ofNat 64 count).toNat = c.toNat + count

/-- Segments are written exactly. A module without a start function that has been instantiated has
left in memory 0, byte by byte, what the last data segment that covers the address says, and in
table 0, slot by slot, its function that the last element segment says; a place that no segment
covers holds what it held before, and zero or null if the memory or table is the module's own. Sizes,
other memories and tables, and globals are unchanged. If the other checks pass, instantiation
succeeds exactly if there is room for every segment, its offset being the number of its cell: that of
the lower half, if the i32 cells from which it is computed are well-formed. -/
theorem segments_written_exactly (env : Environment) (fuel : Nat) (module : Module)
    (entities : List Entity) (config : EngineConfig) (m : Machine) (hs : module.start = none) :
    SegmentsExact env fuel module entities config m := by
  refine ⟨fun id m' h => filled_of_instantiate hs h, fun hchecks => ?_, fun set id m' h => ?_,
    fun e c hconst hglobals h => ?_⟩
  · rw [instantiate_succeeds_iff hs, links_iff_checks]
    exact ⟨fun h => h.2, fun h => ⟨hchecks, h⟩⟩
  · unfold instantiateFrom at h
    split at h
    · cases h
    · next provided hr =>
      have hstore : (m.notify (module.resolutionNotices m.store set)).store = m.store := by
        rw [notify_eq]
      exact ⟨provided, hr, hstore ▸ filled_of_instantiate hs h⟩
  · have hformed := wellFormed_evalConstant hconst hglobals h
    exact ⟨Cell.toNat_eq_index hformed, fun count hcount => Cell.toNat_add hformed hcount⟩

/-- A module whose data segments overlap, and whose last one is empty and ends with the memory. Its
element segments overlap too. -/
def overlappingModule : Module where
  imports := [⟨"env", "memory", .memory {}⟩, ⟨"env", "table", .table {}⟩]
  data := [⟨[.const .i32 1, .end_], [7, 8]⟩, ⟨[.const .i32 2, .end_], [6]⟩,
    ⟨[.const .i32 4, .end_], []⟩]
  elements := [⟨[.const .i32 0, .end_], [0, 0]⟩, ⟨[.const .i32 1, .end_], [1]⟩]

theorem overlapping_segments_written :
    let shared : List Entity := [.memory (some 0), .table (some 0)]
    let m : Machine := { store := sharedStore }
    overlappingModule.start = none ∧ overlappingModule.HasRoom m.store shared ∧
    ∃ m', instantiate {} 0 overlappingModule shared {} m = some (.ok 0, m') ∧
      m.store.Filled overlappingModule shared {} 0 m'.store ∧
      m'.store.memories.map (·.bytes.data) = #[#[1, 7, 6, 4]] ∧
      m'.store.tables.map (·.elements) = #[#[some ⟨⟨0, 0⟩, false⟩, some ⟨⟨0, 1⟩, false⟩]] := by
  intro shared m
  have hexact := segments_written_exactly {} 0 overlappingModule shared {} m rfl
  have hchecks : overlappingModule.Checks m.store shared {} :=
    ((links_iff_checks).mp (links_iff.mpr ⟨_, _, rfl, rfl⟩)).1
  exact ⟨rfl, (hexact.succeeds hchecks).mp ⟨_, _, rfl⟩, _, rfl, hexact.filled 0 _ rfl,
    by decide +kernel, by decide +kernel⟩

end WasmEngine
