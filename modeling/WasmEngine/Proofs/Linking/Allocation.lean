import WasmEngine.Linking.Instantiate

/-!
# What instantiation does to a store

Allocation adds one instance and its entities to a store and leaves the instances that were there
alone; so do the segments that are written afterwards.
-/
namespace WasmEngine
set_option autoImplicit false

/-- The new instance of a module before its exports are known. -/
def bareInstance (s : Store) (module : Module) (entities : List Entity) (config : EngineConfig)
    (globals : List Global) (tables : List Table) (memories : List Memory) : ModuleInstance where
  module := module
  functions := (module.importedFunctions entities ++
    module.definedFunctions config (module.importedFunctions entities).length).toArray
  tables := entities.filterMap Entity.tableAddr? ++ List.range' s.tables.size tables.length
  memories := entities.filterMap Entity.memoryAddr? ++ List.range' s.memories.size memories.length
  globals := (entities.filterMap Entity.globalAddr? ++
    List.range' s.globals.size globals.length).toArray
  listener := config.instrumentation.listener
  tracer := config.tracer

/-- The allocation of an instance whose declared entities are given. -/
def allocationOf (s : Store) (module : Module) (entities : List Entity) (config : EngineConfig)
    (globals : List Global) (tables : List Table) (memories : List Memory) : Allocation :=
  let bare := bareInstance s module entities config globals tables memories
  let inst := { bare with exports := module.exportMap s.instances.size bare }
  { id := s.instances.size
    inst
    store := {
      globals := s.globals ++ globals.toArray
      tables := s.tables ++ tables.toArray
      memories := s.memories ++ memories.toArray
      instances := s.instances.push inst } }

/-- Allocation checks and computes everything that can fail before it looks at the settings of
instrumentation. -/
theorem allocate_eq (s : Store) (module : Module) (entities : List Entity) (config : EngineConfig) :
    allocate s module entities config = do
      module.checkImports s entities
      let globals ← module.initialGlobals (Module.importedGlobals s entities)
      let tables ← module.newTables config.elementsLimit
      let memories ← module.newMemories config.pagesLimit
      return allocationOf s module entities config globals tables memories := rfl

/-- What a successful allocation has checked and made. -/
theorem allocate_eq_ok {s : Store} {module : Module} {entities : List Entity}
    {config : EngineConfig} {a : Allocation} :
    allocate s module entities config = .ok a ↔ module.checkImports s entities = .ok () ∧
      ∃ globals tables memories,
        module.initialGlobals (Module.importedGlobals s entities) = .ok globals ∧
        module.newTables config.elementsLimit = .ok tables ∧
        module.newMemories config.pagesLimit = .ok memories ∧
        a = allocationOf s module entities config globals tables memories := by
  rw [allocate_eq]
  constructor
  · intro h
    cases hi : module.checkImports s entities with
    | error e => rw [hi] at h; cases h
    | ok _ =>
      cases hg : module.initialGlobals (Module.importedGlobals s entities) with
      | error e => rw [hi, hg] at h; cases h
      | ok globals =>
        cases ht : module.newTables config.elementsLimit with
        | error e => rw [hi, hg, ht] at h; cases h
        | ok tables =>
          cases hm : module.newMemories config.pagesLimit with
          | error e => rw [hi, hg, ht, hm] at h; cases h
          | ok memories =>
            rw [hi, hg, ht, hm] at h
            exact ⟨rfl, globals, tables, memories, rfl, rfl, rfl, (Except.ok.inj h).symm⟩
  · rintro ⟨hi, globals, tables, memories, hg, ht, hm, rfl⟩
    rw [hi, hg, ht, hm]
    rfl

theorem foldl_instances {α : Type} {f : Store → α → Store}
    (hf : ∀ s x, (f s x).instances = s.instances) (l : List α) :
    ∀ s : Store, (l.foldl f s).instances = s.instances := by
  induction l with
  | nil => exact fun _ => rfl
  | cons x rest ih => exact fun s => (ih (f s x)).trans (hf s x)

theorem write_instances (p : Placement) (id : InstanceId) (memory : Option MemoryAddr)
    (table : Option TableAddr) (s : Store) :
    (p.write id memory table s).instances = s.instances := by
  unfold Placement.write
  cases memory <;> cases table <;> dsimp only
  · refine foldl_instances ?_ _ _
    exact fun _ _ => rfl
  · refine foldl_instances ?_ _ _
    exact fun _ _ => rfl
  · refine (foldl_instances ?_ _ _).trans (foldl_instances ?_ _ _)
    · exact fun _ _ => rfl
    · exact fun _ _ => rfl

theorem retain_instances (p : Placement) (table : Option TableAddr) (s : Store) :
    (p.retain table s).instances = s.instances := by
  unfold Placement.retain
  cases table with
  | none => rfl
  | some a =>
    refine foldl_instances ?_ _ _
    exact fun _ _ => rfl

/-- Notices only reach the journal. -/
theorem notify_eq (notices : List Notice) :
    ∀ m : Machine, m.notify notices = { m with journal := (m.notify notices).journal } := by
  induction notices with
  | nil => exact fun _ => rfl
  | cons notice rest ih => exact fun m => ih (m.emit (.notice notice))

end WasmEngine
