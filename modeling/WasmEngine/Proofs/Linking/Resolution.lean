import WasmEngine.Proofs.Linking.ConstantExpression
import WasmEngine.Proofs.Linking.Provision
import WasmEngine.Proofs.Linking.Starting

/-!
# Resolution of imports

Imports are checked twice: by name when they are looked up in a set, and by position when the module
is instantiated. Both checks pass for what the import accepts, and the first import of the section
that finds nothing it accepts decides the error, before anything else is looked at.
-/
namespace WasmEngine
set_option autoImplicit false

section
variable {ε α β : Type} {f : α → Except ε β}

/-- A list is computed up to the first element that fails. -/
theorem mapM_eq_error_iff {l : List α} {e : ε} :
    l.mapM f = .error e ↔ ∃ before a after, l = before ++ a :: after ∧
      (∀ x ∈ before, ∃ b, f x = .ok b) ∧ f a = .error e := by
  induction l with
  | nil => exact ⟨nofun, fun ⟨before, a, after, h, _⟩ => by cases before <;> cases h⟩
  | cons a rest ih =>
    rw [List.mapM_cons]
    cases ha : f a with
    | error e' =>
      constructor
      · intro h
        obtain rfl : e' = e := Except.error.inj h
        exact ⟨[], a, rest, rfl, nofun, ha⟩
      · rintro ⟨_ | ⟨a', before⟩, x, after, h, hbefore, hx⟩
        · obtain ⟨rfl, -⟩ := List.cons.inj h
          obtain rfl := Except.error.inj (ha.symm.trans hx)
          rfl
        · obtain ⟨rfl, -⟩ := List.cons.inj h
          obtain ⟨b, hb⟩ := hbefore a (.head _)
          cases ha.symm.trans hb
    | ok b =>
      have hrest : (do let b' ← Except.ok b; let bs ← rest.mapM f; pure (b' :: bs)) =
          (Except.error e : Except ε (List β)) ↔ rest.mapM f = .error e := by
        cases rest.mapM f with
        | error e' =>
          constructor
          all_goals
            rintro ⟨⟩
            rfl
        | ok bs => exact ⟨nofun, nofun⟩
      rw [hrest, ih]
      constructor
      · rintro ⟨before, x, after, rfl, hbefore, hx⟩
        exact ⟨a :: before, x, after, rfl, List.forall_mem_cons.mpr ⟨⟨b, ha⟩, hbefore⟩, hx⟩
      · rintro ⟨_ | ⟨a', before⟩, x, after, h, hbefore, hx⟩
        · obtain ⟨rfl, -⟩ := List.cons.inj h
          cases ha.symm.trans hx
        · obtain ⟨rfl, rfl⟩ := List.cons.inj h
          exact ⟨before, x, after, rfl, (List.forall_mem_cons.mp hbefore).2, hx⟩

end

/-- The error tells that the imports of a module were not given as it asks. -/
def LinkError.IsImportError (e : LinkError) : Prop :=
  e.code = .missingImport ∨ e.code = .importTypeMismatch

section
variable {s : Store} {i : Import} {e : Entity} {error : LinkError}

theorem Limits.check_eq_ok_iff {provided declared : Limits} :
    provided.check declared = .ok () ↔ provided.Within declared := by
  refine ⟨Limits.within_of_check, fun h => ?_⟩
  unfold check
  rw [if_neg (Nat.not_lt.mpr h.min)]
  cases hmost : declared.max with
  | none => rfl
  | some most =>
    obtain ⟨n, hn, hle⟩ := h.max most hmost
    rw [hn]
    exact if_pos (decide_eq_true hle)

theorem Import.checkSize_eq_ok {provided declared : Limits} {size : Nat}
    (hl : provided.Within declared) (hs : provided.admits size = true) :
    i.checkSize provided declared size = .ok () := by
  unfold checkSize
  rw [Limits.check_eq_ok_iff.mpr hl]
  exact if_pos hs

/-- The check of an import passes exactly for what the import accepts. -/
theorem Import.check_eq_ok_iff : i.check s e = .ok () ↔ i.Accepts s e := by
  refine ⟨accepts_of_check, fun h => ?_⟩
  unfold check
  cases h with
  | function callee hi =>
    rw [hi]
    exact if_pos rfl
  | table hi ht hl hs =>
    rw [hi]
    dsimp only [Option.bind_some]
    rw [ht]
    exact checkSize_eq_ok hl hs
  | memory hi hx hl hs =>
    rw [hi]
    dsimp only [Option.bind_some]
    rw [hx]
    exact checkSize_eq_ok hl hs
  | global hi hg =>
    rw [hi]
    dsimp only [Option.bind_some]
    rw [hg]
    exact (if_neg (not_not.mpr rfl)).trans (if_neg (not_not.mpr rfl))

theorem Limits.code_of_check {provided declared : Limits}
    (h : provided.check declared = .error error) : error.code = .importTypeMismatch := by
  unfold check at h
  split at h
  · obtain rfl := Except.error.inj h
    rfl
  split at h
  · cases h
  split at h
  · cases h
  · obtain rfl := Except.error.inj h
    rfl

theorem Import.code_of_checkSize {provided declared : Limits} {size : Nat}
    (h : i.checkSize provided declared size = .error error) :
    error.code = .importTypeMismatch := by
  unfold checkSize at h
  cases hc : provided.check declared with
  | error e =>
    rw [hc] at h
    obtain rfl : e = error := Except.error.inj h
    exact Limits.code_of_check hc
  | ok _ =>
    rw [hc] at h
    change (if provided.admits size = true then _ else _) = _ at h
    split at h
    · cases h
    · obtain rfl := Except.error.inj h
      rfl

theorem Import.code_of_checkGlobal {provided declared : GlobalType}
    (h : i.checkGlobal provided declared = .error error) : error.code = .importTypeMismatch := by
  unfold checkGlobal at h
  split at h
  · obtain rfl := Except.error.inj h
    rfl
  split at h
  · obtain rfl := Except.error.inj h
    rfl
  · cases h

/-- Whatever an import refuses, it is the wrong type. -/
theorem Import.code_of_check (h : i.check s e = .error error) :
    error.code = .importTypeMismatch := by
  unfold check at h
  split at h
  · split at h
    · cases h
    · obtain rfl := Except.error.inj h
      rfl
  · split at h
    · obtain rfl := Except.error.inj h
      rfl
    · exact code_of_checkSize h
  · split at h
    · obtain rfl := Except.error.inj h
      rfl
    · exact code_of_checkSize h
  · split at h
    · obtain rfl := Except.error.inj h
      rfl
    · exact code_of_checkGlobal h
  · obtain rfl := Except.error.inj h
    rfl

variable {set : Imports}

/-- An import is resolved to what the set provides under its name, if it accepts that. -/
theorem Import.resolve_eq_ok_iff : i.resolve s set = .ok e ↔
    set.find? i.moduleName i.name = some e ∧ i.Accepts s e := by
  unfold resolve
  cases set.find? i.moduleName i.name with
  | none => exact ⟨nofun, fun h => nomatch h.1⟩
  | some e' =>
    dsimp only
    rw [← check_eq_ok_iff, Option.some_inj]
    cases hc : i.check s e' with
    | error error =>
      refine ⟨nofun, ?_⟩
      rintro ⟨rfl, hok⟩
      cases hc.symm.trans hok
    | ok _ =>
      constructor
      · rintro ⟨⟩
        exact ⟨rfl, hc⟩
      · rintro ⟨rfl, -⟩
        rfl

/-- The two ways in which an import is not resolved. -/
inductive Import.Unresolved (s : Store) (i : Import) : Option Entity → LinkError → Prop
  | absent : Unresolved s i none (.missingImport i.fullName)
  | refused {e : Entity} {error : LinkError} (h : ¬ i.Accepts s e)
      (hcheck : i.check s e = .error error) (hcode : error.code = .importTypeMismatch) :
      Unresolved s i (some e) error

theorem Import.resolve_eq_error_iff : i.resolve s set = .error error ↔
    i.Unresolved s (set.find? i.moduleName i.name) error := by
  unfold resolve
  cases set.find? i.moduleName i.name with
  | none =>
    constructor
    · rintro ⟨⟩
      exact .absent
    · rintro ⟨⟩
      rfl
  | some e =>
    dsimp only
    cases hc : i.check s e with
    | error error' =>
      constructor
      · rintro ⟨⟩
        refine .refused (fun h => ?_) hc (code_of_check hc)
        cases hc.symm.trans (check_eq_ok_iff.mpr h)
      · intro h
        cases h with
        | refused _ hcheck =>
          obtain rfl := Except.error.inj (hc.symm.trans hcheck)
          rfl
    | ok _ =>
      refine ⟨nofun, fun h => ?_⟩
      cases h with
      | refused h => exact absurd (check_eq_ok_iff.mp hc) h

end

section
variable {imported : List Global} {error : LinkError}

/-- The placement of a segment fails for its offset or because it does not fit. -/
theorem segmentOffset_code {offset : ConstantExpression} {count : Nat} {size : Option Nat}
    {failure : LinkError} (h : segmentOffset imported offset count size failure = .error error) :
    error.code = .globalInitializer ∨ error = failure := by
  unfold segmentOffset at h
  cases hc : evalConstant imported .i32 offset with
  | error error' =>
    rw [hc] at h
    obtain rfl : error' = error := Except.error.inj h
    exact .inl (evalConstant_code hc)
  | ok c =>
    rw [hc] at h
    change (if size.any (c.toNat + count ≤ ·) = true then _ else _) = _ at h
    split at h
    · cases h
    · exact .inr (Except.error.inj h).symm

theorem placeAll_code {α β : Type} {offset : α → ConstantExpression} {items : α → List β}
    {size : Option Nat} {failure : LinkError} {segments : List α}
    (hfailure : failure.code = .segmentOutOfBounds)
    (h : placeAll imported offset items size failure segments = .error error) :
    error.code = .globalInitializer ∨ error.code = .segmentOutOfBounds := by
  obtain ⟨-, d, -, -, -, hd⟩ := mapM_eq_error_iff.mp h
  cases hoffset : segmentOffset imported (offset d) (items d).length size failure with
  | error error' =>
    rw [hoffset] at hd
    obtain rfl : error' = error := Except.error.inj hd
    exact (segmentOffset_code hoffset).imp_right fun h => (congrArg LinkError.code h).trans hfailure
  | ok place =>
    rw [hoffset] at hd
    cases hd

end

section
variable {s : Store} {module : Module} {entities : List Entity} {config : EngineConfig}
  {a : Allocation} {error : LinkError}

/-- If its imports conform, a module is refused for its declarations only. -/
theorem allocate_code (hi : module.checkImports s entities = .ok ())
    (h : allocate s module entities config = .error error) : ¬ error.IsImportError := by
  rw [allocate_eq, hi] at h
  have hcode : error.code = .globalInitializer ∨ error.code = .memoryLimitExceeded := by
    cases hg : module.initialGlobals (Module.importedGlobals s entities) with
    | error error' =>
      rw [hg] at h
      obtain rfl : error' = error := Except.error.inj h
      obtain ⟨-, g, -, -, -, hg⟩ := mapM_eq_error_iff.mp hg
      cases hc : evalConstant (Module.importedGlobals s entities) g.type.valType g.init with
      | error error'' =>
        rw [hc] at hg
        obtain rfl : error'' = error' := Except.error.inj hg
        exact .inl (evalConstant_code hc)
      | ok c =>
        rw [hc] at hg
        cases hg
    | ok globals =>
      cases ht : module.newTables config.elementsLimit with
      | error error' =>
        rw [hg, ht] at h
        obtain rfl : error' = error := Except.error.inj h
        obtain ⟨-, l, -, -, -, ht⟩ := mapM_eq_error_iff.mp ht
        split at ht
        · obtain rfl := Except.error.inj ht
          exact .inr rfl
        · cases ht
      | ok tables =>
        cases hm : module.newMemories config.pagesLimit with
        | error error' =>
          rw [hg, ht, hm] at h
          obtain rfl : error' = error := Except.error.inj h
          obtain ⟨-, l, -, -, -, hm⟩ := mapM_eq_error_iff.mp hm
          split at hm
          · obtain rfl := Except.error.inj hm
            exact .inr rfl
          · cases hm
        | ok memories =>
          rw [hg, ht, hm] at h
          cases h
  rintro (himport | himport) <;> rcases hcode with hcode | hcode <;>
    cases hcode.symm.trans himport

/-- Nor do the segments of a module blame its imports. -/
theorem place_code (ha : allocate s module entities config = .ok a) {imported : List Global}
    (h : a.place imported = .error error) : ¬ error.IsImportError := by
  rw [place_allocate ha] at h
  have hcode : error.code = .globalInitializer ∨ error.code = .segmentOutOfBounds := by
    cases hdata : placeAll imported DataSegment.offset DataSegment.bytes
        (module.memorySize? s entities) .dataOutOfBounds module.data with
    | error error' =>
      rw [hdata] at h
      obtain rfl : error' = error := Except.error.inj h
      exact placeAll_code rfl hdata
    | ok data =>
      cases helements : placeAll imported ElementSegment.offset ElementSegment.functions
          (module.tableSize? s entities) .elementsOutOfBounds module.elements with
      | error error' =>
        rw [hdata, helements] at h
        obtain rfl : error' = error := Except.error.inj h
        exact placeAll_code rfl helements
      | ok elements =>
        rw [hdata, helements] at h
        cases h
  rintro (himport | himport) <;> rcases hcode with hcode | hcode <;>
    cases hcode.symm.trans himport

variable {env : Environment} {fuel : Nat} {m m' : Machine} {set : Imports}

/-- Once the imports conform, an instantiation ends with no error about them. -/
theorem instantiate_code {e : InstantiationError}
    (hi : module.checkImports m.store entities = .ok ())
    (h : instantiate env fuel module entities config m = some (.error e, m')) :
    e.code ≠ .missingImport ∧ e.code ≠ .importTypeMismatch := by
  cases instantiate_ends h with
  | unallocated ha => exact not_or.mp (allocate_code hi ha)
  | unplaced ha hp => exact not_or.mp (place_code ha hp)
  | trapped => exact ⟨nofun, nofun⟩

/-- Imports are resolved to what the set provides, if they accept that. -/
theorem resolveImports_eq_ok_iff : module.resolveImports s set = .ok entities ↔
    List.Forall₂ (fun i e => set.find? i.moduleName i.name = some e ∧ i.Accepts s e)
      module.imports entities := by
  refine mapM_eq_ok_iff.trans ⟨fun h => h.imp fun _ _ => ?_, fun h => h.imp fun _ _ => ?_⟩
  · exact Import.resolve_eq_ok_iff.mp
  · exact Import.resolve_eq_ok_iff.mpr

/-- What resolution finds passes the check by position. -/
theorem checkImports_of_resolveImports (h : module.resolveImports s set = .ok entities) :
    module.checkImports s entities = .ok () := by
  have hall := resolveImports_eq_ok_iff.mp h
  refine checkImports_eq_ok.mpr ⟨hall.length_eq.symm, fun ⟨i, e⟩ he => ?_⟩
  exact Import.check_eq_ok_iff.mpr ((List.forall₂_iff_zip.mp hall).2 he).2

end

/-- Resolution of imports is exact, in whatever way the set was filled. It succeeds exactly if what
was added last under the name of each import is accepted by the import, and then gives these
entities in the order of the section; an instantiation with them ends with no error about imports.
Otherwise the first import in the order of the section that finds nothing or does not accept what it
finds decides the error, and an instantiation from the set ends with it and leaves the store alone,
whatever else is to be said of the module. Every new instance can be added to the set in turn. -/
theorem import_resolution_exact (env : Environment) (fuel : Nat) (module : Module)
    (config : EngineConfig) (m : Machine) {additions : List Addition} {set : Imports}
    (h : set.After additions) :
    ((∃ entities, module.resolveImports m.store set = .ok entities) ↔
      ∀ i ∈ module.imports, ∃ e, latestAdded? additions i.moduleName i.name = some e ∧
        i.Accepts m.store e) ∧
    (∀ entities, module.resolveImports m.store set = .ok entities →
      entities.map some = module.imports.map (fun i => latestAdded? additions i.moduleName i.name) ∧
      module.checkImports m.store entities = .ok () ∧
      (∀ config n e n', n.store = m.store →
        instantiate env fuel module entities config n = some (.error e, n') →
        e.code ≠ .missingImport ∧ e.code ≠ .importTypeMismatch) ∧
      instantiateFrom env fuel module set config m = instantiate env fuel module entities config
        (m.notify (module.resolutionNotices m.store set))) ∧
    (∀ error, module.resolveImports m.store set = .error error ↔
      ∃ before i after, module.imports = before ++ i :: after ∧
        (∀ j ∈ before, ∃ e, latestAdded? additions j.moduleName j.name = some e ∧
          j.Accepts m.store e) ∧
        i.Unresolved m.store (latestAdded? additions i.moduleName i.name) error) ∧
    (∀ error, module.resolveImports m.store set = .error error →
      ∃ n, instantiateFrom env fuel module set config m = some (.error (.link error), n) ∧
        n.store = m.store) ∧
    ∀ entities a moduleName, allocate m.store module entities config = .ok a →
      (set.addInstance moduleName a.inst).After (additions ++ [.exports moduleName a.inst]) := by
  have hfinds : ∀ i : Import, (∃ e, i.resolve m.store set = .ok e) ↔
      ∃ e, latestAdded? additions i.moduleName i.name = some e ∧ i.Accepts m.store e := by
    intro i
    rw [← h.find?_eq]
    exact exists_congr fun _ => Import.resolve_eq_ok_iff
  refine ⟨?_, fun entities hok => ⟨?_, ?_, ?_, ?_⟩, fun error => ?_, fun error herror => ?_, ?_⟩
  · exact exists_mapM_eq_ok.trans (forall₂_congr fun i _ => hfinds i)
  · have hfound : List.Forall₂ (· = ·)
        (module.imports.map fun i => latestAdded? additions i.moduleName i.name)
        (entities.map some) := by
      rw [List.forall₂_map_left_iff, List.forall₂_map_right_iff]
      exact (resolveImports_eq_ok_iff.mp hok).imp fun i e hie => (h.find?_eq ..).symm.trans hie.1
    rw [List.forall₂_eq_eq_eq] at hfound
    exact hfound.symm
  · exact checkImports_of_resolveImports hok
  · intro config n e n' hstore hn
    refine instantiate_code ?_ hn
    rw [hstore]
    exact checkImports_of_resolveImports hok
  · unfold instantiateFrom
    rw [hok]
  · refine mapM_eq_error_iff.trans ?_
    simp only [hfinds, Import.resolve_eq_error_iff, h.find?_eq]
  · unfold instantiateFrom
    rw [herror]
    refine ⟨_, rfl, ?_⟩
    rw [notify_eq]
  · intro entities a moduleName ha
    exact .exports moduleName (nodup_exports_of_allocate ha) (.refl _) h

/-- A store with a table of one element. -/
def libraryStore : Store where
  tables := #[{ elements := #[none], limits := { min := 1 } }]

/-- An instance that shows the table and a function. -/
def libraryInstance : ModuleInstance where
  exports := [("table", .table (some 0)), ("run", .function (.host 0 0) {})]

/-- The exports of the instance, and another function under the name of its function. -/
def libraryAdditions : List Addition :=
  [.exports "library" libraryInstance,
    .entity "library" "run" (.function (.host 1 0) ⟨[.i32], []⟩)]

def borrowingModule : Module where
  imports := [⟨"library", "run", .function ⟨[.i32], []⟩⟩, ⟨"library", "table", .table { min := 1 }⟩]

/-- A module that asks for too large a table and for something absent, and whose data segment has no
place. -/
def demandingModule : Module where
  imports := [⟨"library", "run", .function ⟨[.i32], []⟩⟩,
    ⟨"library", "table", .table { min := 2 }⟩, ⟨"library", "absent", .function {}⟩]
  data := [⟨[.const .i32 0, .end_], [1]⟩]

/-- The function added last counts, and the first import that is not resolved decides the error. -/
theorem library_resolution :
    let m : Machine := { store := libraryStore }
    ∃ set : Imports, set.After libraryAdditions ∧
      (∃ entities, borrowingModule.resolveImports m.store set = .ok entities ∧
        entities.map some = [some (.function (.host 1 0) ⟨[.i32], []⟩), some (.table (some 0))] ∧
        borrowingModule.checkImports m.store entities = .ok ()) ∧
      ∃ n, instantiateFrom {} 1 demandingModule set {} m =
        some (.error (.link .minBelowDeclared), n) ∧ n.store = m.store := by
  intro m
  -- the exports come in the reverse order
  let set : Imports := (({} : Imports).addInstance "library"
    { libraryInstance with exports := libraryInstance.exports.reverse }).add "library" "run"
      (.function (.host 1 0) ⟨[.i32], []⟩)
  have hset : set.After libraryAdditions :=
    .entity "library" "run" _ (.exports "library" (by decide) (List.reverse_perm _) .nothing)
  refine ⟨set, hset, ⟨_, rfl, ?_⟩, ?_⟩
  · obtain ⟨-, hok, -⟩ := import_resolution_exact {} 1 borrowingModule {} m hset
    obtain ⟨hlatest, hchecked, -⟩ := hok _ rfl
    exact ⟨hlatest, hchecked⟩
  · obtain ⟨-, -, -, herror, -⟩ := import_resolution_exact {} 1 demandingModule {} m hset
    exact herror .minBelowDeclared rfl

end WasmEngine
