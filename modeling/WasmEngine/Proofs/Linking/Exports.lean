import WasmEngine.Proofs.Linking.Layout

/-!
# Exports

An instance keeps one map from names to entities, a module a list of exports that tell kind, name
and index. If names are distinct, a lookup in the instance finds the entry at the index that the
module tells for the kind and name.
-/
namespace WasmEngine
set_option autoImplicit false

/-- What the instance with the number `id` exports is what the module exports: the entry at the
index that the module gives. -/
structure ModuleInstance.Exposes (module : Module) (id : InstanceId) (i : ModuleInstance) :
    Prop where
  function : ∀ name, i.exportedFunction? name = (module.findExport? .function name).map
    fun k => (.guest ⟨id, k⟩, (module.functionType? k).getD {})
  table : ∀ name, i.exportedTable? name = (module.findExport? .table name).bind (i.tables[·]?)
  memory : ∀ name, i.exportedMemory? name = (module.findExport? .memory name).bind (i.memories[·]?)
  global : ∀ name, i.exportedGlobal? name = (module.findExport? .global name).bind (i.globals[·]?)

/-- A lookup finds something in the instance exactly if the module has an export of the kind and
name. -/
structure ModuleInstance.Finds (module : Module) (i : ModuleInstance) (name : String) : Prop where
  function : (i.exportedFunction? name).isSome = (module.findExport? .function name).isSome
  table : (i.exportedTable? name).isSome = (module.findExport? .table name).isSome
  memory : (i.exportedMemory? name).isSome = (module.findExport? .memory name).isSome
  global : (i.exportedGlobal? name).isSome = (module.findExport? .global name).isSome

namespace ModuleInstance

variable (i : ModuleInstance) (name : String)

theorem exportedFunction?_eq :
    i.exportedFunction? name = (i.exported? name).bind Entity.callee? := by
  unfold exportedFunction?
  rcases i.exported? name with _ | _ | _ | _ | _ <;> rfl

theorem exportedTable?_eq : i.exportedTable? name = (i.exported? name).bind Entity.tableAddr? := by
  unfold exportedTable?
  rcases i.exported? name with _ | _ | _ | _ | _ <;> rfl

theorem exportedMemory?_eq :
    i.exportedMemory? name = (i.exported? name).bind Entity.memoryAddr? := by
  unfold exportedMemory?
  rcases i.exported? name with _ | _ | _ | _ | _ <;> rfl

theorem exportedGlobal?_eq :
    i.exportedGlobal? name = (i.exported? name).bind Entity.globalAddr? := by
  unfold exportedGlobal?
  rcases i.exported? name with _ | _ | _ | _ | _ <;> rfl

end ModuleInstance

section
variable {κ α : Type} [BEq κ] [LawfulBEq κ]

theorem lookup_assign (key key' : κ) (value : α) (l : List (κ × α)) :
    (assign key value l).lookup key' = if key' == key then some value else l.lookup key' := by
  induction l with
  | nil =>
    rw [assign, List.lookup_cons]
    cases key' == key <;> rfl
  | cons e rest ih =>
    obtain ⟨k, v⟩ := e
    rw [assign]
    by_cases hk : k = key
    · subst hk
      rw [if_pos (beq_self_eq_true k), List.lookup_cons, List.lookup_cons]
      cases key' == k <;> rfl
    · rw [if_neg (fun h => hk (eq_of_beq h)), List.lookup_cons, ih, List.lookup_cons]
      by_cases hk' : key' = k
      · subst hk'
        have hne : ¬ (key' == key) = true := fun h => hk (eq_of_beq h)
        rw [if_neg hne, if_neg hne, beq_self_eq_true]
      · rw [beq_eq_false_iff_ne.mpr hk']

/-- Of values assigned to different keys, the one assigned to a key is found under it. -/
theorem lookup_foldl_assign {β : Type} {key : β → κ} (value : β → α) (l : List β) :
    ∀ map : List (κ × α), (l.map key).Nodup → ∀ k,
      (l.foldl (fun map e => assign (key e) (value e) map) map).lookup k =
        ((l.find? fun e => key e == k).map value).or (map.lookup k) := by
  induction l with
  | nil => exact fun _ _ _ => rfl
  | cons e rest ih =>
    intro map hnodup k
    obtain ⟨hfresh, hrest⟩ := List.nodup_cons.mp hnodup
    rw [List.foldl_cons, ih _ hrest, lookup_assign, List.find?_cons]
    by_cases hk : k = key e
    · subst hk
      have hnone : (rest.find? fun e' => key e' == key e) = none := by
        refine List.find?_eq_none.mpr fun e' he' heq => hfresh ?_
        exact List.mem_map.mpr ⟨e', he', eq_of_beq heq⟩
      rw [hnone, beq_self_eq_true, if_pos rfl]
      rfl
    · rw [if_neg (fun h => hk (eq_of_beq h)), beq_eq_false_iff_ne.mpr (Ne.symm hk)]

end

section
variable {module : Module} {id : InstanceId} {i : ModuleInstance} {kind : EntityKind}
  {name : String}

theorem lookup_exportMap (hnames : (module.exports.map (·.name)).Nodup) (name : String) :
    (module.exportMap id i).lookup name =
      (module.exports.find? (·.name == name)).map (Module.exportedEntity id i) := by
  unfold Module.exportMap
  rw [lookup_foldl_assign (Module.exportedEntity id i) module.exports [] hnames name]
  exact Option.or_none

/-- If names are distinct, to look for a kind and a name is to look for the name. -/
theorem find?_kind_name {exports : List Export} (hnames : (exports.map (·.name)).Nodup) :
    (exports.find? fun e => e.kind == kind && e.name == name) =
      (exports.find? (·.name == name)).filter (·.kind == kind) := by
  induction exports with
  | nil => rfl
  | cons e rest ih =>
    obtain ⟨hfresh, hrest⟩ := List.nodup_cons.mp hnames
    rw [List.find?_cons, List.find?_cons]
    cases hname : e.name == name with
    | false =>
      rw [Bool.and_false]
      exact ih hrest
    | true =>
      rw [Bool.and_true]
      dsimp only
      rw [Option.filter_some]
      cases hkind : e.kind == kind with
      | true => rfl
      | false =>
        refine List.find?_eq_none.mpr fun e' he' heq => hfresh ?_
        obtain ⟨-, heq⟩ := Bool.and_eq_true_iff.mp heq
        exact List.mem_map.mpr ⟨e', he', (eq_of_beq heq).trans (eq_of_beq hname).symm⟩

/-- What an instance with the exports of the module has under a name is the export that the module
has under it, whatever its kind. -/
theorem findExport?_eq (hnames : (module.exports.map (·.name)).Nodup) :
    module.findExport? kind name =
      ((module.exports.find? (·.name == name)).filter (·.kind == kind)).map (·.index) := by
  unfold Module.findExport?
  rw [find?_kind_name hnames]

section
variable {bare : ModuleInstance} (hnames : (module.exports.map (·.name)).Nodup)
  (hexports : i.exports = module.exportMap id bare)
include hnames hexports

/-- To look up a name and take what is of one kind is to look for the export of that kind. -/
theorem exported?_bind_eq {α : Type} {read : Entity → Option α} {space : Nat → Option α}
    (hread : ∀ e : Export, read (Module.exportedEntity id bare e) =
      if e.kind == kind then space e.index else none) (name : String) :
    (i.exported? name).bind read = (module.findExport? kind name).bind space := by
  unfold ModuleInstance.exported?
  rw [hexports, lookup_exportMap hnames, findExport?_eq hnames]
  cases module.exports.find? (·.name == name) with
  | none => rfl
  | some e =>
    rw [Option.map_some, Option.bind_some, Option.filter_some, hread]
    cases e.kind == kind <;> rfl

/-- An instance exposes the entries of its module, if its exports were made from its index
spaces. -/
theorem exposes_of_exportMap (htables : i.tables = bare.tables)
    (hmemories : i.memories = bare.memories) (hglobals : i.globals = bare.globals)
    (htypes : ∀ k : Nat, (bare.functions[k]?).map (·.type) = module.functionType? k) :
    i.Exposes module id := by
  have hentity := fun e => Module.exportedEntity.eq_def id bare e
  refine ⟨fun name => ?_, fun name => ?_, fun name => ?_, fun name => ?_⟩
  · rw [i.exportedFunction?_eq, Option.map_eq_bind]
    refine exported?_bind_eq hnames hexports (fun e => ?_) name
    rw [hentity, htypes]
    cases e.kind <;> rfl
  · rw [i.exportedTable?_eq, htables]
    refine exported?_bind_eq hnames hexports (fun e => ?_) name
    rw [hentity]
    cases e.kind <;> rfl
  · rw [i.exportedMemory?_eq, hmemories]
    refine exported?_bind_eq hnames hexports (fun e => ?_) name
    rw [hentity]
    cases e.kind <;> rfl
  · rw [i.exportedGlobal?_eq, hglobals]
    refine exported?_bind_eq hnames hexports (fun e => ?_) name
    rw [hentity]
    cases e.kind <;> rfl

end

/-- If the exports of the module lie within its index spaces, all of them are found. -/
theorem ModuleInstance.Exposes.finds {entities : List Entity} {config : EngineConfig} {s s' : Store}
    (h : i.Exposes module id) (hi : i.LaidOut module entities config s s')
    (hvalid : ∀ e ∈ module.exports, e.index < module.count e.kind) (name : String) :
    i.Finds module name := by
  have hspace : ∀ {kind : EntityKind} {α : Type} {space : Nat → Option α},
      (∀ k < module.count kind, (space k).isSome = true) →
        ((module.findExport? kind name).bind space).isSome =
          (module.findExport? kind name).isSome := by
    intro kind α space hspace
    cases hk : module.findExport? kind name with
    | none => rfl
    | some k =>
      obtain ⟨e, he, rfl⟩ := Option.map_eq_some_iff.mp hk
      have hfound := List.find?_some he
      obtain ⟨hkind, -⟩ := Bool.and_eq_true_iff.mp hfound
      refine hspace e.index ?_
      rw [← eq_of_beq hkind]
      exact hvalid e (List.mem_of_find?_eq_some he)
  constructor
  · rw [h.function, Option.isSome_map]
  · rw [h.table]
    refine hspace fun k hk => ?_
    rw [List.getElem?_eq_getElem (hi.tableCount ▸ hk), Option.isSome_some]
  · rw [h.memory]
    refine hspace fun k hk => ?_
    rw [List.getElem?_eq_getElem (hi.memoryCount ▸ hk), Option.isSome_some]
  · rw [h.global]
    refine hspace fun k hk => ?_
    rw [Array.getElem?_eq_getElem (hi.globalCount ▸ hk), Option.isSome_some]

end

section
variable {s : Store} {module : Module} {entities : List Entity} {config : EngineConfig}
  {a : Allocation}

/-- The functions of a new instance have the types that the module tells, and there are no
others. -/
theorem map_type_functions (ha : allocate s module entities config = .ok a) (k : Nat) :
    (a.inst.functions[k]?).map (·.type) = module.functionType? k := by
  cases hf : a.inst.functions[k]? with
  | some f => exact (stands_of_allocate ha hf).type.symm
  | none =>
    have hsize := (laidOut_of_allocate ha).functionCount
    have hk := Array.getElem?_eq_none_iff.mp hf
    have h := accepts_of_checkImports (allocate_eq_ok.mp ha).1
    have hlength : module.functionTypes.length = module.count .function := by
      rw [functionTypes_eq h, List.length_append, List.length_map, List.length_map,
        length_eq_importCount h (provided_functions h)]
      rfl
    exact (List.getElem?_eq_none (by omega)).symm

theorem exposes_of_allocate (ha : allocate s module entities config = .ok a)
    (hnames : (module.exports.map (·.name)).Nodup) {i : ModuleInstance} (hi : a.inst.Stays i) :
    i.Exposes module a.id := by
  have htypes := map_type_functions ha
  obtain ⟨-, globals, tables, memories, -, -, -, rfl⟩ := allocate_eq_ok.mp ha
  obtain ⟨-, -, htables, hmemories, hglobals, hexports, -, -⟩ := ModuleInstance.mk.inj hi
  exact exposes_of_exportMap hnames hexports htables hmemories hglobals htypes

end

end WasmEngine
