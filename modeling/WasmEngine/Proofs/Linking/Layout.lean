import WasmEngine.Proofs.Linking.Changes
import WasmEngine.Proofs.Linking.Conformance

/-!
# The layout of an instance

A module counts its index spaces over the import section and its declarations; an instance is put
together from lists of entities. Both agree when the instance is allocated: the entities given for
the imports of a kind come first, in the order of the section, and the declared ones follow in
theirs. They still agree whatever becomes of the instance later.
-/
namespace WasmEngine
set_option autoImplicit false

/-- The entity without the private state of a host function. -/
def Entity.stateless : Entity → Entity
  | .function callee type => .function callee.stateless type
  | e => e

/-- What an imported function was given as. -/
def FunctionInstance.given? (f : FunctionInstance) : Option Entity :=
  match f.body with
  | .imported callee => some (.function callee.stateless f.type)
  | .defined _ _ => none

/-- The function is the one that the module has at the index `k`. -/
structure FunctionInstance.Stands (module : Module) (config : EngineConfig) (k : Nat)
    (f : FunctionInstance) : Prop where
  type : module.functionType? k = some f.type
  index : f.index = k
  name : f.name = module.functionName k
  imported : k < module.importCount .function →
    module.code? k = none ∧ ∃ callee, f.body = .imported callee
  defined : module.importCount .function ≤ k →
    ∃ code, module.code? k = some code ∧ f.body = .defined code (config.instrument? f.name code)

/-- The index spaces of an instance of the module that was allocated in the store `s`, as they are
in the store `s'`. The declared tables, memories and globals stand behind those that `s` has. -/
structure ModuleInstance.LaidOut (module : Module) (entities : List Entity) (config : EngineConfig)
    (s s' : Store) (i : ModuleInstance) : Prop where
  origin : i.module = module
  functionCount : i.functions.size = module.count .function
  tableCount : i.tables.length = module.count .table
  memoryCount : i.memories.length = module.count .memory
  globalCount : i.globals.size = module.count .global
  importedFunctions : (i.functions.toList.take (module.importCount .function)).map (·.given?) =
    (provided .function module.imports entities).map fun e => some e.stateless
  importedTables : (i.tables.take (module.importCount .table)).map (fun a => .table (some a)) =
    provided .table module.imports entities
  importedMemories :
    (i.memories.take (module.importCount .memory)).map (fun a => .memory (some a)) =
      provided .memory module.imports entities
  importedGlobals : (i.globals.toList.take (module.importCount .global)).map
    (fun a => .global (some a)) = provided .global module.imports entities
  functions : ∀ (k : Nat) (f : FunctionInstance), i.functions[k]? = some f →
    f.Stands module config k
  declaredTables : ∀ (k : Nat) (l : Limits), module.tables[k]? = some l →
    i.tables[module.importCount .table + k]? = some (s.tables.size + k) ∧
      ∃ t, s'.tables[s.tables.size + k]? = some t ∧ t.limits = l ∧
        t.elementsLimit = config.elementsLimit
  declaredMemories : ∀ (k : Nat) (l : Limits), module.memories[k]? = some l →
    i.memories[module.importCount .memory + k]? = some (s.memories.size + k) ∧
      ∃ x, s'.memories[s.memories.size + k]? = some x ∧ x.limits = l ∧
        x.pagesLimit = config.pagesLimit
  declaredGlobals : ∀ (k : Nat) (g : GlobalDef), module.globals[k]? = some g →
    i.globals[module.importCount .global + k]? = some (s.globals.size + k)
  globals : ∀ (k : Nat) (a : GlobalAddr), i.globals[k]? = some a →
    ∃ g, s'.globals[a]? = some g ∧ module.globalType? k = some g.type

section
variable {s : Store} {module : Module} {entities : List Entity} {config : EngineConfig}
  {a : Allocation}

section
variable (h : List.Forall₂ (Import.Accepts s) module.imports entities)
include h

/-- The entities of one kind are as many as the imports of this kind. -/
theorem length_eq_importCount {β : Type} {kind : EntityKind} {read : Entity → Option β}
    {write : β → Entity}
    (hread : (entities.filterMap read).map write = provided kind module.imports entities) :
    (entities.filterMap read).length = module.importCount kind := by
  have hlength := congrArg List.length hread
  rw [List.length_map] at hlength
  exact hlength.trans (accepts_provided kind h).length_eq.symm

theorem length_importedFunctions :
    (module.importedFunctions entities).length = module.importCount .function := by
  unfold Module.importedFunctions
  rw [List.length_mapIdx, length_eq_importCount h (provided_functions h)]

/-- A module tells the types that conforming functions have. -/
theorem functionTypes_eq : module.functionTypes =
    (entities.filterMap Entity.callee?).map (·.2) ++
      module.functions.map fun f => module.types.getD f.type {} := by
  unfold Module.functionTypes
  congr 1
  generalize module.imports = imports at h ⊢
  induction h with
  | nil => rfl
  | @cons i e imports entities hie _ ih =>
    rw [List.filterMap_cons, List.filterMap_cons]
    cases hie with
    | function callee hi =>
      rw [hi]
      exact congrArg (_ :: ·) ih
    | table hi | memory hi | global hi =>
      rw [hi]
      exact ih

/-- A module tells the types that conforming globals have. -/
theorem globalTypes_eq : ∃ types, module.globalTypes = types ++ module.globals.map (·.type) ∧
    List.Forall₂ (fun a type => ∃ g, s.globals[a]? = some g ∧ g.type = type)
      (entities.filterMap Entity.globalAddr?) types := by
  refine ⟨_, rfl, ?_⟩
  generalize module.imports = imports at h ⊢
  induction h with
  | nil => exact .nil
  | @cons i e imports entities hie _ ih =>
    rw [List.filterMap_cons, List.filterMap_cons]
    cases hie with
    | global hi hg =>
      rw [hi]
      exact .cons ⟨_, hg, rfl⟩ ih
    | function callee hi | table hi | memory hi =>
      rw [hi]
      exact ih

end

/-- An entry of two lists in a row is one of the first or of the second. -/
theorem getElem?_append_cases {α : Type} {l l' : List α} {k : Nat} {x : α}
    (h : (l ++ l')[k]? = some x) :
    (k < l.length ∧ l[k]? = some x) ∨ ∃ j, k = l.length + j ∧ l'[j]? = some x := by
  rcases Nat.lt_or_ge k l.length with hk | hk
  · exact .inl ⟨hk, (List.getElem?_append_left hk).symm.trans h⟩
  · refine .inr ⟨k - l.length, by omega, ?_⟩
    rwa [List.getElem?_append_right hk] at h

/-- The functions of a new instance are those of the module. -/
theorem stands_of_allocate (ha : allocate s module entities config = .ok a) {k : Nat}
    {f : FunctionInstance} (hf : a.inst.functions[k]? = some f) : f.Stands module config k := by
  obtain ⟨hi, globals, tables, memories, -, -, -, rfl⟩ := allocate_eq_ok.mp ha
  have h := accepts_of_checkImports hi
  have hcount := length_eq_importCount h (provided_functions h)
  dsimp only [allocationOf, bareInstance] at hf
  rw [List.getElem?_toArray] at hf
  have himported := length_importedFunctions h
  obtain ⟨hk, hleft⟩ | ⟨j, rfl, hright⟩ := getElem?_append_cases hf
  · unfold Module.importedFunctions at hleft
    rw [List.getElem?_mapIdx] at hleft
    obtain ⟨⟨callee, type⟩, hc, rfl⟩ := Option.map_eq_some_iff.mp hleft
    rw [himported] at hk
    refine ⟨?_, rfl, rfl, fun _ => ⟨if_pos hk, callee, rfl⟩, fun hle => absurd hk (by omega)⟩
    unfold Module.functionType?
    rw [functionTypes_eq h, List.getElem?_append_left (by rw [List.length_map]; omega),
      List.getElem?_map, hc]
    rfl
  · unfold Module.definedFunctions at hright
    rw [List.getElem?_mapIdx] at hright
    obtain ⟨d, hd, rfl⟩ := Option.map_eq_some_iff.mp hright
    rw [himported]
    refine ⟨?_, rfl, rfl, fun hlt => absurd hlt (by omega), fun _ => ⟨d.code, ?_, rfl⟩⟩
    · unfold Module.functionType?
      rw [functionTypes_eq h, List.getElem?_append_right (by rw [List.length_map]; omega),
        List.length_map, hcount, Nat.add_sub_cancel_left, List.getElem?_map, hd]
      rfl
    · unfold Module.code?
      rw [if_neg (by omega), Nat.add_sub_cancel_left, hd]
      rfl

/-- The new globals have the types of the declared ones and the values of their initializers. -/
theorem globals_of_initialGlobals {imported globals : List Global}
    (hg : module.initialGlobals imported = .ok globals) :
    List.Forall₂ (fun d g => g.type = d.type ∧
      evalConstant imported d.type.valType d.init = .ok g.value) module.globals globals := by
  refine (mapM_eq_ok_iff.mp hg).imp fun d g hd => ?_
  cases hv : evalConstant imported d.type.valType d.init with
  | error e =>
    rw [hv] at hd
    cases hd
  | ok c =>
    rw [hv] at hd
    obtain rfl := Except.ok.inj hd
    exact ⟨rfl, rfl⟩

theorem given_importedFunctions (entities : List Entity) :
    (module.importedFunctions entities).map (·.given?) =
      ((entities.filterMap Entity.callee?).map fun c => Entity.function c.1 c.2).map
        fun e => some e.stateless := by
  unfold Module.importedFunctions
  apply List.ext_getElem?
  intro k
  simp only [List.getElem?_map, List.getElem?_mapIdx, Option.map_map]
  rfl

theorem getElem?_append_range' {l : List Nat} {base n k : Nat} (hk : k < n) :
    (l ++ List.range' base n)[l.length + k]? = some (base + k) := by
  rw [List.getElem?_append_right (Nat.le_add_right ..), Nat.add_sub_cancel_left,
    List.getElem?_range' hk, Nat.one_mul]

theorem getElem?_append_toArray {α : Type} (l : Array α) (l' : List α) (k : Nat) :
    (l ++ l'.toArray)[l.size + k]? = l'[k]? := by
  rw [Array.getElem?_append_right (Nat.le_add_right ..), Nat.add_sub_cancel_left,
    List.getElem?_toArray]

/-- An entry of the new space of globals has the type that the module tells. -/
theorem global_of_layout (h : List.Forall₂ (Import.Accepts s) module.imports entities)
    {globals : List Global}
    (hdeclared : List.Forall₂ (fun d g => g.type = d.type) module.globals globals)
    {k : Nat} {x : GlobalAddr}
    (hx : (entities.filterMap Entity.globalAddr? ++
      List.range' s.globals.size globals.length)[k]? = some x) :
    ∃ g, (s.globals ++ globals.toArray)[x]? = some g ∧ module.globalType? k = some g.type := by
  obtain ⟨types, htypes, hglobals⟩ := globalTypes_eq h
  unfold Module.globalType?
  rw [htypes]
  obtain ⟨hk, hleft⟩ | ⟨j, rfl, hright⟩ := getElem?_append_cases hx
  · have hk' : k < types.length := hglobals.length_eq ▸ hk
    obtain ⟨g, hg, htype⟩ := hglobals.get hk hk'
    rw [List.getElem?_eq_getElem hk] at hleft
    obtain rfl := Option.some.inj hleft
    refine ⟨g, ?_, ?_⟩
    · exact (Array.getElem?_append_left (Array.getElem?_eq_some_iff.mp hg).1).trans hg
    · rw [List.getElem?_append_left hk', List.getElem?_eq_getElem hk']
      exact congrArg some htype.symm
  · obtain ⟨hj, rfl⟩ := List.getElem?_eq_some_iff.mp hright
    rw [List.length_range'] at hj
    have hj' : j < module.globals.length := hdeclared.length_eq ▸ hj
    rw [List.getElem_range', Nat.one_mul, getElem?_append_toArray]
    refine ⟨_, List.getElem?_eq_getElem hj, ?_⟩
    rw [hglobals.length_eq, List.getElem?_append_right (Nat.le_add_right ..),
      Nat.add_sub_cancel_left, List.getElem?_map, List.getElem?_eq_getElem hj']
    exact congrArg some (hdeclared.get hj' hj).symm

/-- A declared table begins with the least size, in the place behind those that were there. -/
theorem table_of_allocate (ha : allocate s module entities config = .ok a) {k : Nat} {l : Limits}
    (hl : module.tables[k]? = some l) :
    a.store.tables[s.tables.size + k]? = some (.create l config.elementsLimit) := by
  obtain ⟨-, globals, tables, memories, -, ht, -, rfl⟩ := allocate_eq_ok.mp ha
  obtain rfl := newTables_eq ht
  dsimp only [allocationOf]
  rw [getElem?_append_toArray, List.getElem?_map, hl]
  rfl

theorem memory_of_allocate (ha : allocate s module entities config = .ok a) {k : Nat} {l : Limits}
    (hl : module.memories[k]? = some l) :
    a.store.memories[s.memories.size + k]? = some (.create l config.pagesLimit) := by
  obtain ⟨-, globals, tables, memories, -, -, hm, rfl⟩ := allocate_eq_ok.mp ha
  obtain rfl := newMemories_eq hm
  dsimp only [allocationOf]
  rw [getElem?_append_toArray, List.getElem?_map, hl]
  rfl

/-- A new instance is laid out as its module says. -/
theorem laidOut_of_allocate (ha : allocate s module entities config = .ok a) :
    a.inst.LaidOut module entities config s a.store := by
  have htable := fun (k : Nat) (l : Limits) => table_of_allocate ha (k := k) (l := l)
  have hmemory := fun (k : Nat) (l : Limits) => memory_of_allocate ha (k := k) (l := l)
  have hstands := fun (k : Nat) (f : FunctionInstance) => stands_of_allocate ha (k := k) (f := f)
  obtain ⟨hi, globals, tables, memories, hg, ht, hm, rfl⟩ := allocate_eq_ok.mp ha
  have h := accepts_of_checkImports hi
  have htables := length_eq_importCount h (provided_tables h)
  have hmemories := length_eq_importCount h (provided_memories h)
  have hglobals := length_eq_importCount h (provided_globals h)
  have hdeclared := (globals_of_initialGlobals hg).imp fun _ _ hd => hd.1
  obtain rfl := newTables_eq ht
  obtain rfl := newMemories_eq hm
  have himported := length_importedFunctions h
  dsimp only [allocationOf, bareInstance] at hstands ⊢
  exact {
    origin := rfl
    functionCount := by
      rw [List.size_toArray, List.length_append, himported, Module.definedFunctions,
        List.length_mapIdx]
      rfl
    tableCount := by
      rw [List.length_append, htables, List.length_range', List.length_map]
      rfl
    memoryCount := by
      rw [List.length_append, hmemories, List.length_range', List.length_map]
      rfl
    globalCount := by
      rw [List.size_toArray, List.length_append, hglobals, List.length_range',
        ← hdeclared.length_eq]
      rfl
    importedFunctions := by
      rw [List.take_left' himported, given_importedFunctions, provided_functions h]
    importedTables := by rw [List.take_left' htables, provided_tables h]
    importedMemories := by rw [List.take_left' hmemories, provided_memories h]
    importedGlobals := by rw [List.take_left' hglobals, provided_globals h]
    functions := hstands
    declaredTables := fun k l hl => by
      have hk := (List.getElem?_eq_some_iff.mp hl).1
      rw [← htables]
      exact ⟨getElem?_append_range' (by rwa [List.length_map]), _, htable k l hl, rfl, rfl⟩
    declaredMemories := fun k l hl => by
      have hk := (List.getElem?_eq_some_iff.mp hl).1
      rw [← hmemories]
      exact ⟨getElem?_append_range' (by rwa [List.length_map]), _, hmemory k l hl, rfl, rfl⟩
    declaredGlobals := fun k g hl => by
      have hk := (List.getElem?_eq_some_iff.mp hl).1
      rw [← hglobals, List.getElem?_toArray]
      exact getElem?_append_range' (by rwa [← hdeclared.length_eq])
    globals := fun k x hx => by
      rw [List.getElem?_toArray] at hx
      exact global_of_layout h hdeclared hx }

end

section
variable {module : Module} {entities : List Entity} {config : EngineConfig} {s s' s'' : Store}
  {i i' : ModuleInstance}

@[simp] theorem given?_stateless (f : FunctionInstance) : f.stateless.given? = f.given? := by
  obtain ⟨type, name, index, (next | ⟨id, state⟩) | ⟨code, instrumented⟩⟩ := f <;> rfl

/-- It does not matter which private state a host function has. -/
theorem FunctionInstance.Stands.of_stateless {f f' : FunctionInstance} {k : Nat}
    (h : f.Stands module config k) (hf : f'.stateless = f.stateless) :
    f'.Stands module config k := by
  obtain ⟨type, name, index, body⟩ := f
  obtain ⟨type', name', index', body'⟩ := f'
  obtain ⟨rfl, rfl, rfl, hbody⟩ := FunctionInstance.mk.inj hf
  refine ⟨h.type, h.index, h.name, fun hk => ?_, fun hk => ?_⟩
  · obtain ⟨hcode, callee, himported⟩ := h.imported hk
    dsimp only at himported
    subst himported
    cases body' with
    | imported callee' => exact ⟨hcode, callee', rfl⟩
    | defined => cases hbody
  · obtain ⟨code, hcode, hdefined⟩ := h.defined hk
    dsimp only at hdefined
    subst hdefined
    cases body' with
    | imported => cases hbody
    | defined => exact ⟨code, hcode, hbody⟩

/-- Whatever becomes of the store, an instance stays laid out. -/
theorem ModuleInstance.LaidOut.of_keeps (h : i.LaidOut module entities config s s')
    (hs : s'.Keeps s'') (hi : i.Stays i') : i'.LaidOut module entities config s s'' := by
  obtain ⟨origin, functions, tables, memories, globals, exports, listener, tracer⟩ := i
  obtain ⟨origin', functions', tables', memories', globals', exports', listener', tracer'⟩ := i'
  obtain ⟨rfl, hfunctions, rfl, rfl, rfl, rfl, rfl, rfl⟩ := ModuleInstance.mk.inj hi
  exact {
    h with
    functionCount := by
      have hsize := congrArg Array.size hfunctions
      rw [Array.size_map, Array.size_map] at hsize
      exact hsize.trans h.functionCount
    importedFunctions := by
      have hgiven : ∀ l : Array FunctionInstance, (l.map (·.stateless)).toList.map (·.given?) =
          l.toList.map (·.given?) := by
        intro l
        rw [Array.toList_map, List.map_map]
        exact List.map_congr_left fun f _ => given?_stateless f
      have hsame : functions'.toList.map (·.given?) = functions.toList.map (·.given?) := by
        rw [← hgiven, ← hgiven functions]
        exact congrArg (fun l : Array FunctionInstance => l.toList.map (·.given?)) hfunctions
      rw [← h.importedFunctions]
      dsimp only
      rw [List.map_take, List.map_take, hsame]
    functions := fun k f hf => by
      have hk : (functions'.map (·.stateless))[k]? = (functions.map (·.stateless))[k]? :=
        congrArg (fun l : Array FunctionInstance => l[k]?) hfunctions
      rw [Array.getElem?_map, Array.getElem?_map, hf] at hk
      obtain ⟨g, hg, hgf⟩ := Option.map_eq_some_iff.mp hk.symm
      exact (h.functions k g hg).of_stateless hgf.symm
    declaredTables := fun k l hl => by
      obtain ⟨hk, t, ht, hlimits, hceiling⟩ := h.declaredTables k l hl
      obtain ⟨t', ht', hgrows⟩ := hs.tables _ t ht
      exact ⟨hk, t', ht', hgrows.limits.trans hlimits, hgrows.elementsLimit.trans hceiling⟩
    declaredMemories := fun k l hl => by
      obtain ⟨hk, x, hx, hlimits, hceiling⟩ := h.declaredMemories k l hl
      obtain ⟨x', hx', hgrows⟩ := hs.memories _ x hx
      exact ⟨hk, x', hx', hgrows.limits.trans hlimits, hgrows.pagesLimit.trans hceiling⟩
    globals := fun k a ha => by
      obtain ⟨g, hg, htype⟩ := h.globals k a ha
      obtain ⟨g', hg', hstays⟩ := hs.globals _ g hg
      exact ⟨g', hg', htype.trans (congrArg some hstays.symm)⟩ }

end

section
variable {s s' : Store} {module : Module} {entities : List Entity} {config : EngineConfig}
  {a : Allocation}

theorem id_of_allocate (ha : allocate s module entities config = .ok a) :
    a.id = s.instances.size ∧ a.store.instances = s.instances.push a.inst := by
  obtain ⟨-, globals, tables, memories, -, -, -, rfl⟩ := allocate_eq_ok.mp ha
  exact ⟨rfl, rfl⟩

/-- Whatever becomes of the store, the new instance is in its place and laid out as before. -/
theorem laidOut_of_keeps (ha : allocate s module entities config = .ok a)
    (hs : a.store.Keeps s') : ∃ i, s'.instances[a.id]? = some i ∧ a.inst.Stays i ∧
      i.LaidOut module entities config s s' := by
  obtain ⟨hid, hpush⟩ := id_of_allocate ha
  have hinst : a.store.instances[a.id]? = some a.inst := by
    rw [hid, hpush]
    exact Array.getElem?_push_size
  obtain ⟨i, hi, hstays⟩ := hs.instances a.id a.inst hinst
  exact ⟨i, hi, hstays, (laidOut_of_allocate ha).of_keeps hs hstays⟩

end

end WasmEngine
