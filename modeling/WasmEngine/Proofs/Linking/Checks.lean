import Mathlib.Data.List.Forall2
import WasmEngine.Proofs.Linking.Allocation

/-!
# What instantiation checks

`Module.Links` lists the conditions under which a module can be linked: the entities conform to the
imports, every constant expression has a value, no declared table or memory exceeds its ceiling, and
all segments fit. An instance is allocated and its segments are placed exactly if they hold, and the
segments are placed where their offsets say.
-/
namespace WasmEngine
set_option autoImplicit false

section
variable {ε α β : Type} {f : α → Except ε β}

/-- A list is computed element by element. -/
theorem mapM_eq_ok_iff {l : List α} {l' : List β} :
    l.mapM f = .ok l' ↔ List.Forall₂ (fun a b => f a = .ok b) l l' := by
  induction l generalizing l' with
  | nil =>
    rw [List.forall₂_nil_left_iff]
    exact ⟨fun h => (Except.ok.inj h).symm, fun h => h ▸ rfl⟩
  | cons a rest ih =>
    rw [List.mapM_cons, List.forall₂_cons_left_iff]
    cases ha : f a with
    | error e => exact ⟨fun h => (by cases h), fun ⟨b, _, hb, _⟩ => (by cases hb)⟩
    | ok b =>
      cases hr : rest.mapM f with
      | error e =>
        refine ⟨fun h => (by cases h), fun ⟨_, u, _, hu, _⟩ => ?_⟩
        cases hr.symm.trans (ih.mpr hu)
      | ok rest' =>
        constructor
        · intro h
          obtain rfl := Except.ok.inj h
          exact ⟨b, rest', rfl, ih.mp hr, rfl⟩
        · rintro ⟨b', u, hb, hu, rfl⟩
          obtain rfl := Except.ok.inj hb
          obtain rfl := Except.ok.inj (hr.symm.trans (ih.mpr hu))
          rfl

theorem exists_mapM_eq_ok {l : List α} :
    (∃ l', l.mapM f = .ok l') ↔ ∀ a ∈ l, ∃ b, f a = .ok b := by
  simp only [mapM_eq_ok_iff]
  induction l with
  | nil => exact ⟨fun _ _ h => (by cases h), fun _ => ⟨[], .nil⟩⟩
  | cons a rest ih =>
    rw [List.forall_mem_cons, ← ih]
    constructor
    · rintro ⟨_, _ | ⟨ha, hrest⟩⟩
      exact ⟨⟨_, ha⟩, _, hrest⟩
    · rintro ⟨⟨b, ha⟩, rest', hrest⟩
      exact ⟨b :: rest', .cons ha hrest⟩

theorem eq_map_of_mapM_eq_ok {g : α → β} {l : List α} {l' : List β}
    (hg : ∀ a b, f a = .ok b → b = g a) (h : l.mapM f = .ok l') : l' = l.map g := by
  induction mapM_eq_ok_iff.mp h with
  | nil => rfl
  | cons ha hrest ih => rw [hg _ _ ha, ih (mapM_eq_ok_iff.mpr hrest), List.map_cons]

theorem forM_eq_ok_iff {g : α → Except ε Unit} {l : List α} :
    l.forM g = .ok () ↔ ∀ a ∈ l, g a = .ok () := by
  induction l with
  | nil => exact ⟨fun _ _ h => (by cases h), fun _ => rfl⟩
  | cons a rest ih =>
    rw [List.forall_mem_cons, ← ih, List.forM]
    cases g a with
    | error e => exact ⟨fun h => (by cases h), fun h => (by cases h.1)⟩
    | ok _ => exact ⟨fun h => ⟨rfl, h⟩, fun h => h.2⟩

end

@[simp] theorem size_zeros (n : Nat) : (zeros n).size = n := by
  fun_induction zeros n with
  | case1 => rfl
  | case2 n hn half heven ih =>
    rw [ByteArray.size_append, ih]
    omega
  | case3 n hn half hodd ih =>
    rw [ByteArray.size_push, ByteArray.size_append, ih]
    omega

namespace Module

variable (module : Module) (s : Store) (entities : List Entity)

/-- The size of memory 0 of an instance of the module: that of the first imported memory, or the
least size of the first declared one. -/
def memorySize? : Option Nat :=
  match entities.filterMap Entity.memoryAddr? with
  | a :: _ => (s.memories[a]?).map (·.size)
  | [] => module.memories.head?.map (·.min * pageSize)

/-- The size of table 0 of an instance of the module. -/
def tableSize? : Option Nat :=
  match entities.filterMap Entity.tableAddr? with
  | a :: _ => (s.tables[a]?).map (·.size)
  | [] => module.tables.head?.map (·.min)

/-- Every check of an instantiation passes. -/
structure Links (config : EngineConfig) : Prop where
  count : entities.length = module.imports.length
  imports : ∀ e ∈ module.imports.zip entities, e.1.check s e.2 = .ok ()
  globals : ∀ g ∈ module.globals, ∃ c,
    evalConstant (importedGlobals s entities) g.type.valType g.init = .ok c
  tables : ∀ l ∈ module.tables, l.min ≤ config.elementsLimit
  memories : ∀ l ∈ module.memories, l.min ≤ min config.pagesLimit addressablePages
  data : ∀ d ∈ module.data, ∃ c size, evalConstant (importedGlobals s entities) .i32 d.offset = .ok c ∧
    module.memorySize? s entities = some size ∧ c.toNat + d.bytes.length ≤ size
  elements : ∀ e ∈ module.elements, ∃ c size,
    evalConstant (importedGlobals s entities) .i32 e.offset = .ok c ∧
      module.tableSize? s entities = some size ∧ c.toNat + e.functions.length ≤ size

end Module

section
variable {module : Module} {s : Store} {entities : List Entity} {config : EngineConfig}

theorem checkImports_eq_ok :
    module.checkImports s entities = .ok () ↔ entities.length = module.imports.length ∧
      ∀ e ∈ module.imports.zip entities, e.1.check s e.2 = .ok () := by
  unfold Module.checkImports
  split
  · next hcount => exact ⟨nofun, fun h => absurd h.1 hcount⟩
  · next hcount => rw [forM_eq_ok_iff]; exact ⟨fun h => ⟨not_not.mp hcount, h⟩, fun h => h.2⟩

theorem exists_initialGlobals {imported : List Global} :
    (∃ globals, module.initialGlobals imported = .ok globals) ↔
      ∀ g ∈ module.globals, ∃ c, evalConstant imported g.type.valType g.init = .ok c := by
  unfold Module.initialGlobals
  rw [exists_mapM_eq_ok]
  refine forall₂_congr fun g _ => ?_
  cases evalConstant imported g.type.valType g.init with
  | error e => exact ⟨nofun, nofun⟩
  | ok c => exact ⟨fun _ => ⟨c, rfl⟩, fun _ => ⟨⟨c, g.type⟩, rfl⟩⟩

theorem exists_newTables {limit : Nat} :
    (∃ tables, module.newTables limit = .ok tables) ↔ ∀ l ∈ module.tables, l.min ≤ limit := by
  unfold Module.newTables
  rw [exists_mapM_eq_ok]
  refine forall₂_congr fun l _ => ?_
  split
  · next hl => exact ⟨nofun, fun h => absurd h (Nat.not_le.mpr hl)⟩
  · next hl => exact ⟨fun _ => Nat.not_lt.mp hl, fun _ => ⟨_, rfl⟩⟩

theorem exists_newMemories {limit : Nat} :
    (∃ memories, module.newMemories limit = .ok memories) ↔
      ∀ l ∈ module.memories, l.min ≤ min limit addressablePages := by
  unfold Module.newMemories
  rw [exists_mapM_eq_ok]
  refine forall₂_congr fun l _ => ?_
  split
  · next hl => exact ⟨nofun, fun h => absurd h (Nat.not_le.mpr hl)⟩
  · next hl => exact ⟨fun _ => Nat.not_lt.mp hl, fun _ => ⟨_, rfl⟩⟩

/-- The declared tables, with null elements only. -/
theorem newTables_eq {limit : Nat} {tables : List Table} (h : module.newTables limit = .ok tables) :
    tables = module.tables.map (Table.create · limit) := by
  refine eq_map_of_mapM_eq_ok (fun l t hl => ?_) h
  split at hl
  · cases hl
  · exact (Except.ok.inj hl).symm

/-- The declared memories, zeroed. -/
theorem newMemories_eq {limit : Nat} {memories : List Memory}
    (h : module.newMemories limit = .ok memories) :
    memories = module.memories.map (Memory.create · limit) := by
  refine eq_map_of_mapM_eq_ok (fun l m hl => ?_) h
  split at hl
  · cases hl
  · exact (Except.ok.inj hl).symm

/-- The checks of an allocation, which come before those of the segments. -/
theorem exists_allocate :
    (∃ a, allocate s module entities config = .ok a) ↔
      (entities.length = module.imports.length ∧
        ∀ e ∈ module.imports.zip entities, e.1.check s e.2 = .ok ()) ∧
      (∀ g ∈ module.globals, ∃ c,
        evalConstant (Module.importedGlobals s entities) g.type.valType g.init = .ok c) ∧
      (∀ l ∈ module.tables, l.min ≤ config.elementsLimit) ∧
      ∀ l ∈ module.memories, l.min ≤ min config.pagesLimit addressablePages := by
  rw [← checkImports_eq_ok, ← exists_initialGlobals, ← exists_newTables, ← exists_newMemories]
  simp only [allocate_eq_ok]
  constructor
  · rintro ⟨_, hi, globals, tables, memories, hg, ht, hm, rfl⟩
    exact ⟨hi, ⟨globals, hg⟩, ⟨tables, ht⟩, memories, hm⟩
  · rintro ⟨hi, ⟨globals, hg⟩, ⟨tables, ht⟩, memories, hm⟩
    exact ⟨_, hi, globals, tables, memories, hg, ht, hm, rfl⟩

theorem segmentOffset_eq_ok {imported : List Global} {offset : ConstantExpression} {count n : Nat}
    {size : Option Nat} (failure : LinkError) :
    segmentOffset imported offset count size failure = .ok n ↔
      (∃ c, evalConstant imported .i32 offset = .ok c ∧ c.toNat = n) ∧
        ∃ places, size = some places ∧ n + count ≤ places := by
  unfold segmentOffset
  cases evalConstant imported .i32 offset with
  | error e => exact ⟨nofun, fun ⟨⟨_, hc, _⟩, _⟩ => nomatch hc⟩
  | ok c =>
    change (if size.any (c.toNat + count ≤ ·) = true then Except.ok c.toNat else .error failure) = _
      ↔ _
    simp only [Option.any_eq_true, decide_eq_true_eq, Except.ok.injEq, exists_eq_left']
    split
    · next hfits =>
      constructor
      · rintro ⟨⟩
        exact ⟨rfl, hfits⟩
      · rintro ⟨rfl, -⟩
        rfl
    · next hfits =>
      refine ⟨nofun, ?_⟩
      rintro ⟨rfl, hfits'⟩
      exact absurd hfits' hfits

/-- A conforming entity has storage. -/
theorem isSome_typeOf_of_check {i : Import} {e : Entity} (h : i.check s e = .ok ()) :
    (s.typeOf? e).isSome := by
  unfold Import.check at h
  split at h
  · rfl
  · next address _ =>
    cases hb : address.bind (s.tables[·]?) with
    | none => rw [hb] at h; cases h
    | some t => simp only [Store.typeOf?, hb, Option.map_some, Option.isSome_some]
  · next address _ =>
    cases hb : address.bind (s.memories[·]?) with
    | none => rw [hb] at h; cases h
    | some m => simp only [Store.typeOf?, hb, Option.map_some, Option.isSome_some]
  · next address _ =>
    cases hb : address.bind (s.globals[·]?) with
    | none => rw [hb] at h; cases h
    | some g => simp only [Store.typeOf?, hb, Option.map_some, Option.isSome_some]
  · cases h

theorem isSome_typeOf_of_mem (hi : module.checkImports s entities = .ok ()) {e : Entity}
    (he : e ∈ entities) : (s.typeOf? e).isSome := by
  obtain ⟨hcount, himports⟩ := checkImports_eq_ok.mp hi
  obtain ⟨k, hk, rfl⟩ := List.getElem_of_mem he
  have hmem : (module.imports[k], entities[k]) ∈ module.imports.zip entities :=
    List.mem_iff_getElem.mpr ⟨k, by rw [List.length_zip]; omega, List.getElem_zip⟩
  exact isSome_typeOf_of_check (himports _ hmem)

theorem lt_of_mem_memoryAddr (hi : module.checkImports s entities = .ok ()) {address : MemoryAddr}
    (ha : address ∈ entities.filterMap Entity.memoryAddr?) : address < s.memories.size := by
  obtain ⟨e, he, hea⟩ := List.mem_filterMap.mp ha
  have hs := isSome_typeOf_of_mem hi he
  cases e with
  | function | table | global => cases hea
  | memory storage =>
    obtain rfl : storage = some address := hea
    simpa [Store.typeOf?] using hs

theorem lt_of_mem_tableAddr (hi : module.checkImports s entities = .ok ()) {address : TableAddr}
    (ha : address ∈ entities.filterMap Entity.tableAddr?) : address < s.tables.size := by
  obtain ⟨e, he, hea⟩ := List.mem_filterMap.mp ha
  have hs := isSome_typeOf_of_mem hi he
  cases e with
  | function | memory | global => cases hea
  | table storage =>
    obtain rfl : storage = some address := hea
    simpa [Store.typeOf?] using hs

/-- The memory that the data segments of a new instance go to. -/
theorem memorySize_allocate {a : Allocation} (h : allocate s module entities config = .ok a) :
    (a.inst.memories.head?.bind (a.store.memories[·]?)).map (·.size) =
      module.memorySize? s entities := by
  obtain ⟨hi, globals, tables, memories, -, -, hm, rfl⟩ := allocate_eq_ok.mp h
  unfold Module.memorySize?
  dsimp only [allocationOf, bareInstance]
  cases haddr : entities.filterMap Entity.memoryAddr? with
  | nil =>
    rw [newMemories_eq hm]
    cases module.memories with
    | nil => rfl
    | cons l rest => simp [List.range'_succ, Memory.size, Memory.create]
  | cons address rest =>
    -- an imported memory lies in front of those that were added
    have hlt : address < s.memories.size := lt_of_mem_memoryAddr hi (haddr ▸ .head _)
    simp [Array.getElem?_append_left hlt]

/-- The table that the element segments of a new instance go to. -/
theorem tableSize_allocate {a : Allocation} (h : allocate s module entities config = .ok a) :
    (a.inst.tables.head?.bind (a.store.tables[·]?)).map (·.size) =
      module.tableSize? s entities := by
  obtain ⟨hi, globals, tables, memories, -, ht, -, rfl⟩ := allocate_eq_ok.mp h
  unfold Module.tableSize?
  dsimp only [allocationOf, bareInstance]
  cases haddr : entities.filterMap Entity.tableAddr? with
  | nil =>
    rw [newTables_eq ht]
    cases module.tables with
    | nil => rfl
    | cons l rest => simp [List.range'_succ, Table.size, Table.create]
  | cons address rest =>
    have hlt : address < s.tables.size := lt_of_mem_tableAddr hi (haddr ▸ .head _)
    simp [Array.getElem?_append_left hlt]

end

section
variable {α β : Type} {imported : List Global} {offset : α → ConstantExpression}
  {items : α → List β} {size : Option Nat} {failure : LinkError} {segments : List α}

/-- The places of a list of segments, if all fit. -/
def placeAll (imported : List Global) (offset : α → ConstantExpression) (items : α → List β)
    (size : Option Nat) (failure : LinkError) (segments : List α) :
    Except LinkError (List (Nat × List β)) :=
  segments.mapM fun d => do
    return (← segmentOffset imported (offset d) (items d).length size failure, items d)

/-- The places of a list of segments are where their offsets say. -/
def Placed (imported : List Global) (offset : α → ConstantExpression) (items : α → List β) :
    List α → List (Nat × List β) → Prop :=
  List.Forall₂ fun d place => place.2 = items d ∧
    ∃ c, evalConstant imported .i32 (offset d) = .ok c ∧ c.toNat = place.1

/-- A segment has a place if its offset has a value and it fits. -/
theorem placeOne_eq_ok {d : α} {place : Nat × List β} :
    (do return (← segmentOffset imported (offset d) (items d).length size failure, items d) :
        Except LinkError (Nat × List β)) = .ok place ↔
      (place.2 = items d ∧ ∃ c, evalConstant imported .i32 (offset d) = .ok c ∧
        c.toNat = place.1) ∧ ∃ places, size = some places ∧ place.1 + (items d).length ≤ places := by
  rw [and_assoc, ← segmentOffset_eq_ok failure]
  obtain ⟨n, l⟩ := place
  cases segmentOffset imported (offset d) (items d).length size failure with
  | error e => exact ⟨nofun, fun h => nomatch h.2⟩
  | ok k =>
    constructor
    · rintro ⟨⟩
      exact ⟨rfl, rfl⟩
    · rintro ⟨rfl, ⟨⟩⟩
      rfl

theorem placed_of_placeAll {places : List (Nat × List β)}
    (h : placeAll imported offset items size failure segments = .ok places) :
    Placed imported offset items segments places :=
  (mapM_eq_ok_iff.mp h).imp fun _ _ hd => (placeOne_eq_ok.mp hd).1

theorem exists_placeAll (failure : LinkError) :
    (∃ places, placeAll imported offset items size failure segments = .ok places) ↔
      ∀ d ∈ segments, ∃ c places, evalConstant imported .i32 (offset d) = .ok c ∧
        size = some places ∧ c.toNat + (items d).length ≤ places := by
  unfold placeAll
  rw [exists_mapM_eq_ok]
  refine forall₂_congr fun d _ => ?_
  simp only [placeOne_eq_ok]
  constructor
  · rintro ⟨⟨n, l⟩, ⟨-, c, hc, rfl⟩, places, hsize, hfits⟩
    exact ⟨c, places, hc, hsize, hfits⟩
  · rintro ⟨c, places, hc, hsize, hfits⟩
    exact ⟨(c.toNat, items d), ⟨rfl, c, hc, rfl⟩, places, hsize, hfits⟩

end

/-- The segments of a module go where their offsets say. -/
structure Placement.Follows (p : Placement) (module : Module) (imported : List Global) : Prop where
  data : Placed imported DataSegment.offset DataSegment.bytes module.data p.data
  elements : Placed imported ElementSegment.offset ElementSegment.functions module.elements
    p.elements

section
variable {module : Module} {s : Store} {entities : List Entity} {config : EngineConfig}
  {a : Allocation} {p : Placement}

theorem inst_module_of_allocate (h : allocate s module entities config = .ok a) :
    a.inst.module = module := by
  obtain ⟨-, globals, tables, memories, -, -, -, rfl⟩ := allocate_eq_ok.mp h
  rfl

/-- A new instance has its data segments placed first, then its element segments. -/
theorem place_allocate (h : allocate s module entities config = .ok a) (imported : List Global) :
    a.place imported = do
      let data ← placeAll imported DataSegment.offset DataSegment.bytes
        (module.memorySize? s entities) .dataOutOfBounds module.data
      let elements ← placeAll imported ElementSegment.offset ElementSegment.functions
        (module.tableSize? s entities) .elementsOutOfBounds module.elements
      return { data, elements } := by
  rw [← memorySize_allocate h, ← tableSize_allocate h, ← inst_module_of_allocate h]
  rfl

theorem place_eq_ok (h : allocate s module entities config = .ok a) {imported : List Global} :
    a.place imported = .ok p ↔
      placeAll imported DataSegment.offset DataSegment.bytes (module.memorySize? s entities)
        .dataOutOfBounds module.data = .ok p.data ∧
      placeAll imported ElementSegment.offset ElementSegment.functions
        (module.tableSize? s entities) .elementsOutOfBounds module.elements = .ok p.elements := by
  rw [place_allocate h]
  cases placeAll imported DataSegment.offset DataSegment.bytes (module.memorySize? s entities)
    .dataOutOfBounds module.data with
  | error e => exact ⟨nofun, fun h => nomatch h.1⟩
  | ok data =>
    cases placeAll imported ElementSegment.offset ElementSegment.functions
      (module.tableSize? s entities) .elementsOutOfBounds module.elements with
    | error e => exact ⟨nofun, fun h => nomatch h.2⟩
    | ok elements =>
      constructor
      · rintro ⟨⟩
        exact ⟨rfl, rfl⟩
      · rintro ⟨⟨⟩, ⟨⟩⟩
        rfl

theorem follows_of_place (h : allocate s module entities config = .ok a) {imported : List Global}
    (hp : a.place imported = .ok p) : p.Follows module imported := by
  obtain ⟨hdata, helements⟩ := (place_eq_ok h).mp hp
  exact ⟨placed_of_placeAll hdata, placed_of_placeAll helements⟩

theorem exists_place (h : allocate s module entities config = .ok a) {imported : List Global} :
    (∃ p, a.place imported = .ok p) ↔
      (∀ d ∈ module.data, ∃ c size, evalConstant imported .i32 d.offset = .ok c ∧
        module.memorySize? s entities = some size ∧ c.toNat + d.bytes.length ≤ size) ∧
      ∀ e ∈ module.elements, ∃ c size, evalConstant imported .i32 e.offset = .ok c ∧
        module.tableSize? s entities = some size ∧ c.toNat + e.functions.length ≤ size := by
  rw [← exists_placeAll .dataOutOfBounds, ← exists_placeAll .elementsOutOfBounds]
  simp only [place_eq_ok h]
  constructor
  · rintro ⟨p, hdata, helements⟩
    exact ⟨⟨p.data, hdata⟩, p.elements, helements⟩
  · rintro ⟨⟨data, hdata⟩, elements, helements⟩
    exact ⟨⟨data, elements⟩, hdata, helements⟩

/-- A module links exactly if its instance can be allocated and its segments have places. -/
theorem links_iff : module.Links s entities config ↔
    ∃ a p, allocate s module entities config = .ok a ∧
      a.place (Module.importedGlobals s entities) = .ok p := by
  constructor
  · rintro ⟨hcount, himports, hglobals, htables, hmemories, hdata, helements⟩
    obtain ⟨a, ha⟩ := exists_allocate.mpr ⟨⟨hcount, himports⟩, hglobals, htables, hmemories⟩
    obtain ⟨p, hp⟩ := (exists_place ha).mpr ⟨hdata, helements⟩
    exact ⟨a, p, ha, hp⟩
  · rintro ⟨a, p, ha, hp⟩
    obtain ⟨⟨hcount, himports⟩, hglobals, htables, hmemories⟩ := exists_allocate.mp ⟨a, ha⟩
    obtain ⟨hdata, helements⟩ := (exists_place ha).mp ⟨p, hp⟩
    exact ⟨hcount, himports, hglobals, htables, hmemories, hdata, helements⟩

end

end WasmEngine
