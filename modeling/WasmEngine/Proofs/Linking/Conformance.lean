import WasmEngine.Proofs.Linking.Checks

/-!
# Conforming entities

What an import accepts, in terms of the store, and what follows for the entities of one kind among
those given for the imports of a module: they are the ones given for the imports of this kind, in
the order of the section.
-/
namespace WasmEngine
set_option autoImplicit false

/-- The limits of a provided entity lie within the declared ones. -/
structure Limits.Within (provided declared : Limits) : Prop where
  min : declared.min ≤ provided.min
  max : ∀ most, declared.max = some most → ∃ n, provided.max = some n ∧ n ≤ most

theorem Limits.within_of_check {provided declared : Limits}
    (h : provided.check declared = .ok ()) : provided.Within declared := by
  unfold Limits.check at h
  split at h
  · cases h
  next hmin =>
  refine ⟨Nat.not_lt.mp hmin, fun most hmost => ?_⟩
  rw [hmost] at h
  dsimp only at h
  split at h
  · next hmax =>
    obtain ⟨n, hn, hle⟩ := Option.any_eq_true _ _ |>.mp hmax
    exact ⟨n, hn, of_decide_eq_true hle⟩
  · cases h

/-- An import accepts an entity of its own type, the limits of a table or memory lying within the
declared ones and its size within its limits. -/
inductive Import.Accepts (s : Store) (i : Import) : Entity → Prop
  | function {type : FuncType} (callee : Callee) (hi : i.type = .function type) :
      Accepts s i (.function callee type)
  | table {l : Limits} {a : TableAddr} {t : Table} (hi : i.type = .table l)
      (ht : s.tables[a]? = some t) (hl : t.limits.Within l) (hs : t.limits.admits t.size = true) :
      Accepts s i (.table (some a))
  | memory {l : Limits} {a : MemoryAddr} {x : Memory} (hi : i.type = .memory l)
      (hx : s.memories[a]? = some x) (hl : x.limits.Within l)
      (hs : x.limits.admits x.pages = true) : Accepts s i (.memory (some a))
  | global {a : GlobalAddr} {g : Global} (hi : i.type = .global g.type)
      (hg : s.globals[a]? = some g) : Accepts s i (.global (some a))

section
variable {s : Store} {i : Import} {e : Entity}

theorem Import.within_of_checkSize {provided declared : Limits} {size : Nat}
    (h : i.checkSize provided declared size = .ok ()) :
    provided.Within declared ∧ provided.admits size = true := by
  unfold checkSize at h
  cases hc : provided.check declared with
  | error e =>
    rw [hc] at h
    cases h
  | ok _ =>
    rw [hc] at h
    refine ⟨Limits.within_of_check hc, ?_⟩
    by_contra hs
    have hs := (if_neg hs).symm.trans h
    cases hs

theorem Import.globalType_of_check {provided declared : GlobalType}
    (h : i.checkGlobal provided declared = .ok ()) : provided = declared := by
  unfold checkGlobal at h
  split at h
  · cases h
  next htype =>
  split at h
  · cases h
  next hmutable =>
  obtain ⟨_, _⟩ := provided
  obtain ⟨_, _⟩ := declared
  rw [GlobalType.mk.injEq]
  exact ⟨not_not.mp htype, not_not.mp hmutable⟩

theorem Import.Accepts.kind_eq (h : i.Accepts s e) : i.kind = e.kind := by
  cases h with
  | function _ hi | table hi | memory hi | global hi => exact congrArg EntityType.kind hi

/-- The check of an import passes for what it accepts only. -/
theorem accepts_of_check (h : i.check s e = .ok ()) : i.Accepts s e := by
  unfold Import.check at h
  split at h
  · next declared callee provided hi =>
    split at h
    · next htype => exact .function callee (htype ▸ hi)
    · cases h
  · next declared address hi =>
    cases ha : address.bind (s.tables[·]?) with
    | none =>
      rw [ha] at h
      cases h
    | some t =>
      rw [ha] at h
      obtain ⟨a, rfl, ht⟩ := Option.bind_eq_some_iff.mp ha
      obtain ⟨hl, hs⟩ := Import.within_of_checkSize h
      exact .table hi ht hl hs
  · next declared address hi =>
    cases ha : address.bind (s.memories[·]?) with
    | none =>
      rw [ha] at h
      cases h
    | some x =>
      rw [ha] at h
      obtain ⟨a, rfl, hx⟩ := Option.bind_eq_some_iff.mp ha
      obtain ⟨hl, hs⟩ := Import.within_of_checkSize h
      exact .memory hi hx hl hs
  · next declared address hi =>
    cases ha : address.bind (s.globals[·]?) with
    | none =>
      rw [ha] at h
      cases h
    | some g =>
      rw [ha] at h
      obtain ⟨a, rfl, hg⟩ := Option.bind_eq_some_iff.mp ha
      exact .global (Import.globalType_of_check h ▸ hi) hg
  · cases h

end

/-- The entities that are given for the imports of one kind, in their order. -/
def provided (kind : EntityKind) (imports : List Import) (entities : List Entity) : List Entity :=
  ((imports.zip entities).filter (·.1.kind == kind)).map (·.2)

section
variable {s : Store} {module : Module} {imports : List Import} {entities : List Entity}

theorem accepts_of_checkImports (h : module.checkImports s entities = .ok ()) :
    List.Forall₂ (Import.Accepts s) module.imports entities := by
  obtain ⟨hcount, himports⟩ := checkImports_eq_ok.mp h
  refine List.forall₂_iff_zip.mpr ⟨hcount.symm, fun he => ?_⟩
  exact accepts_of_check (himports _ he)

section
variable {β : Type} {kind : EntityKind} {read : Entity → Option β} {write : β → Entity}

/-- If the accepted entities of a kind are those that can be read, to read all entities is to take
those given for the imports of the kind. -/
theorem map_filterMap_eq_provided (h : List.Forall₂ (Import.Accepts s) imports entities)
    (hread : ∀ (i : Import) (e : Entity), i.Accepts s e →
      (e.kind = kind ∧ ∃ b, read e = some b ∧ write b = e) ∨ (e.kind ≠ kind ∧ read e = none)) :
    (entities.filterMap read).map write = provided kind imports entities := by
  unfold provided
  induction h with
  | nil => rfl
  | @cons i e imports entities hie _ ih =>
    rw [List.zip_cons_cons, List.filterMap_cons, List.filter_cons]
    dsimp only
    rw [hie.kind_eq]
    obtain ⟨hkind, b, hb, rfl⟩ | ⟨hkind, hnone⟩ := hread i e hie
    · rw [hb, if_pos (beq_iff_eq.mpr hkind), List.map_cons, List.map_cons, ih]
    · rw [hnone, if_neg (fun hk => hkind (beq_iff_eq.mp hk))]
      exact ih

end

/-- The imports of a kind accept the entities that are given for them, one by one. -/
theorem accepts_provided (kind : EntityKind)
    (h : List.Forall₂ (Import.Accepts s) imports entities) :
    List.Forall₂ (Import.Accepts s) (imports.filter (·.kind == kind))
      (provided kind imports entities) := by
  unfold provided
  induction h with
  | nil => exact .nil
  | @cons i e imports entities hie _ ih =>
    rw [List.zip_cons_cons, List.filter_cons, List.filter_cons]
    dsimp only
    split
    · exact .cons hie ih
    · exact ih

theorem provided_functions (h : List.Forall₂ (Import.Accepts s) imports entities) :
    (entities.filterMap Entity.callee?).map (fun c => .function c.1 c.2) =
      provided .function imports entities := by
  refine map_filterMap_eq_provided h fun i e hie => ?_
  cases hie with
  | function => exact .inl ⟨rfl, _, rfl, rfl⟩
  | table | memory | global => exact .inr ⟨fun hk => (by cases hk), rfl⟩

theorem provided_tables (h : List.Forall₂ (Import.Accepts s) imports entities) :
    (entities.filterMap Entity.tableAddr?).map (fun a => .table (some a)) =
      provided .table imports entities := by
  refine map_filterMap_eq_provided h fun i e hie => ?_
  cases hie with
  | table => exact .inl ⟨rfl, _, rfl, rfl⟩
  | function | memory | global => exact .inr ⟨fun hk => (by cases hk), rfl⟩

theorem provided_memories (h : List.Forall₂ (Import.Accepts s) imports entities) :
    (entities.filterMap Entity.memoryAddr?).map (fun a => .memory (some a)) =
      provided .memory imports entities := by
  refine map_filterMap_eq_provided h fun i e hie => ?_
  cases hie with
  | memory => exact .inl ⟨rfl, _, rfl, rfl⟩
  | function | table | global => exact .inr ⟨fun hk => (by cases hk), rfl⟩

theorem provided_globals (h : List.Forall₂ (Import.Accepts s) imports entities) :
    (entities.filterMap Entity.globalAddr?).map (fun a => .global (some a)) =
      provided .global imports entities := by
  refine map_filterMap_eq_provided h fun i e hie => ?_
  cases hie with
  | global => exact .inl ⟨rfl, _, rfl, rfl⟩
  | function | table | memory => exact .inr ⟨fun hk => (by cases hk), rfl⟩

end

end WasmEngine
