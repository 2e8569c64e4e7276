import WasmEngine.Proofs.Binary.Subsections

/-!
# Canonical name sections

The canonical form of a name section has one subsection for each field that is not empty, in the
order of the identifiers, with the entries of a map in the order of the indices and all numbers in
their shortest form. It is decoded to what it was made of.
-/
namespace WasmEngine
set_option autoImplicit false

/-- All indices are numbers of 32 bits. -/
def IndexMap.Fits {α : Type} (m : IndexMap α) : Prop := ∀ e ∈ m.entries, e.1 < 2 ^ 32

instance {α : Type} (m : IndexMap α) : Decidable m.Fits :=
  inferInstanceAs (Decidable (∀ e ∈ m.entries, e.1 < 2 ^ 32))

namespace NameSection

def encodeName (name : String) : List UInt8 :=
  Leb128.encode (Utf8.encode name.toList).length ++ Utf8.encode name.toList

section
variable {α : Type} (item : α → List UInt8)

def encodeEntry (e : Nat × α) : List UInt8 := Leb128.encode e.1 ++ item e.2

def encodeMap (m : IndexMap α) : List UInt8 :=
  Leb128.encode m.entries.length ++ m.entries.flatMap (encodeEntry item)

/-- The content of the subsection of a map, if there is to be one. -/
def mapContent? (m : IndexMap α) : Option (List UInt8) :=
  if m.entries.isEmpty then none else some (encodeMap item m)

end

variable (s : NameSection)

/-- The content of each field, by identifier. -/
def contents : List (UInt8 × Option (List UInt8)) :=
  [(0, s.moduleName.map encodeName), (1, mapContent? encodeName s.functions),
    (2, mapContent? (encodeMap encodeName) s.locals),
    (3, mapContent? (encodeMap encodeName) s.labels), (4, mapContent? encodeName s.types),
    (5, mapContent? encodeName s.tables), (6, mapContent? encodeName s.memories),
    (7, mapContent? encodeName s.globals)]

def toSubsection? (c : UInt8 × Option (List UInt8)) : Option Subsection :=
  c.2.map fun content => ⟨c.1, Leb128.encode content.length, content⟩

def subsections : List Subsection := s.contents.filterMap toSubsection?

def encode : List UInt8 := s.subsections.flatMap (·.bytes)

/-- All indices of the names are numbers of 32 bits. -/
structure IndicesFit : Prop where
  functions : s.functions.Fits
  locals : s.locals.Fits ∧ ∀ e ∈ s.locals.entries, e.2.Fits
  labels : s.labels.Fits ∧ ∀ e ∈ s.labels.entries, e.2.Fits
  types : s.types.Fits
  tables : s.tables.Fits
  memories : s.memories.Fits
  globals : s.globals.Fits

theorem nameForm_encodeName {name : String} (h : (encodeName name).length < 2 ^ 32) :
    NameForm name (encodeName name) := by
  unfold encodeName at h
  rw [List.length_append] at h
  exact ⟨_, Leb128.written_encode _ (by decide) (by omega), rfl⟩

section
variable {α : Type} {form : α → List UInt8 → Prop} {item : α → List UInt8}

/-- Entries of a bounded length have bounded items, and they are no more than their bytes. -/
theorem manyForm_flatMap {entries : List (Nat × α)}
    (hitem : ∀ e ∈ entries, (item e.2).length < 2 ^ 32 → form e.2 (item e.2))
    (hindices : ∀ e ∈ entries, e.1 < 2 ^ 32)
    (hlength : (entries.flatMap (encodeEntry item)).length < 2 ^ 32) :
    ManyForm (EntryForm form) entries (entries.flatMap (encodeEntry item)) ∧
      entries.length ≤ (entries.flatMap (encodeEntry item)).length := by
  induction entries with
  | nil => exact ⟨.nil, Nat.le_refl _⟩
  | cons e rest ih =>
    obtain ⟨he, hrest⟩ := List.forall_mem_cons.mp hitem
    obtain ⟨hindex, hindices⟩ := List.forall_mem_cons.mp hindices
    rw [List.flatMap_cons, List.length_append] at hlength ⊢
    have hentry : (encodeEntry item e).length = (Leb128.encode e.1).length + (item e.2).length :=
      List.length_append
    obtain ⟨hforms, hcount⟩ := ih hrest hindices (by omega)
    have hpos := Leb128.length_encode_pos e.1
    refine ⟨.cons ⟨_, _, Leb128.written_encode _ (by decide) hindex, he (by omega), rfl⟩ hforms, ?_⟩
    rw [List.length_cons]
    omega

theorem mapForm_encodeMap {m : IndexMap α}
    (hitem : ∀ e ∈ m.entries, (item e.2).length < 2 ^ 32 → form e.2 (item e.2)) (hm : m.Fits)
    (hlength : (encodeMap item m).length < 2 ^ 32) : MapForm form m (encodeMap item m) := by
  unfold encodeMap at hlength ⊢
  rw [List.length_append] at hlength
  obtain ⟨hforms, hcount⟩ := manyForm_flatMap hitem hm (by omega)
  refine ⟨m.entries, _, _, Leb128.written_encode _ (by decide) (by omega), hforms, rfl, fun i => ?_⟩
  rw [← IndexMap.get?_ofList, IndexMap.ofList_entries]

/-- The content of a map shows the map. -/
theorem shows_mapContent? {m : IndexMap α}
    (hitem : ∀ e ∈ m.entries, (item e.2).length < 2 ^ 32 → form e.2 (item e.2)) (hm : m.Fits)
    (hlength : ∀ content, mapContent? item m = some content → content.length < 2 ^ 32) :
    Shows (MapForm form) .empty m (mapContent? item m) := by
  unfold mapContent? at hlength ⊢
  by_cases hempty : m.entries.isEmpty = true
  · rw [if_pos hempty]
    cases m
    obtain rfl := List.isEmpty_iff.mp hempty
    rfl
  · rw [if_neg hempty] at hlength ⊢
    exact mapForm_encodeMap hitem hm (hlength _ rfl)

end

theorem lastContent?_toSubsection {contents : List (UInt8 × Option (List UInt8))}
    (h : (contents.map (·.1)).Nodup) (id : UInt8) :
    lastContent? (contents.filterMap toSubsection?) id.toNat = (contents.lookup id).join := by
  induction contents using List.reverseRecOn with
  | nil => rfl
  | append_singleton contents c ih =>
    obtain ⟨id', content⟩ := c
    rw [List.map_append, List.map_singleton, List.nodup_append] at h
    obtain ⟨hcontents, -, hfresh⟩ := h
    have hnone : contents.lookup id' = none := by
      refine Option.eq_none_iff_forall_ne_some.mpr fun x hx => ?_
      have hmem := (lookup_eq_some_iff_mem hcontents).mp hx
      exact hfresh id' (List.mem_map_of_mem hmem) id' (List.mem_singleton.mpr rfl) rfl
    have hlast : (contents ++ [(id', content)]).lookup id =
        if id = id' then some content else contents.lookup id := by
      rw [List.lookup_append, List.lookup_cons, List.lookup_nil]
      by_cases hid : id = id'
      · subst hid
        rw [if_pos rfl, beq_self_eq_true, hnone]
        rfl
      · rw [if_neg hid, beq_eq_false_iff_ne.mpr hid, Option.or_none]
    rw [hlast, List.filterMap_append]
    cases content with
    | none =>
      have hempty : [(id', none)].filterMap toSubsection? = [] := rfl
      rw [hempty, List.append_nil, ih hcontents]
      by_cases hid : id = id'
      · rw [if_pos hid, hid, hnone]
        rfl
      · rw [if_neg hid]
    | some content =>
      have hone : [(id', some content)].filterMap toSubsection? =
        [⟨id', Leb128.encode content.length, content⟩] := rfl
      rw [hone, lastContent?_append, ih hcontents]
      dsimp only
      by_cases hid : id = id'
      · rw [if_pos hid, if_pos (congrArg UInt8.toNat hid.symm), Option.join_some]
      · rw [if_neg hid, if_neg fun h => hid (UInt8.toNat_inj.mp h.symm)]

theorem nodup_ids : (s.contents.map (·.1)).Nodup := by
  change ([0, 1, 2, 3, 4, 5, 6, 7] : List UInt8).Nodup
  decide

theorem lastContent?_subsections (id : UInt8) :
    lastContent? s.subsections id.toNat = (s.contents.lookup id).join :=
  lastContent?_toSubsection s.nodup_ids id

/-- A subsection is the last one of its identifier. -/
theorem lastContent?_of_mem {x : Subsection} (hx : x ∈ s.subsections) :
    lastContent? s.subsections x.id.toNat = some x.content ∧
      x.size = Leb128.encode x.content.length := by
  obtain ⟨c, hc, hsubsection⟩ := List.mem_filterMap.mp hx
  obtain ⟨content, hcontent, rfl⟩ := Option.map_eq_some_iff.mp hsubsection
  have hlookup : s.contents.lookup c.1 = some c.2 :=
    (lookup_eq_some_iff_mem s.nodup_ids).mpr hc
  refine ⟨?_, rfl⟩
  dsimp only
  rw [lastContent?_subsections, hlookup, hcontent]
  rfl

/-- What the last subsection of an identifier holds is valid. -/
theorem HoldsLast.valid {subsections : List Subsection} (h : s.HoldsLast subsections)
    {x : Subsection} (hx : lastContent? subsections x.id.toNat = some x.content) : x.Valid := by
  unfold Subsection.Valid
  obtain ⟨hname, hfunctions, hlocals, hlabels, htypes, htables, hmemories, hglobals⟩ := h
  generalize x.id.toNat = id at hx
  match id with
  | 0 =>
    rw [hx] at hname
    exact hname.elim fun text h => ⟨text, h.2⟩
  | 1 => exact ⟨_, hx ▸ hfunctions⟩
  | 2 => exact ⟨_, hx ▸ hlocals⟩
  | 3 => exact ⟨_, hx ▸ hlabels⟩
  | 4 => exact ⟨_, hx ▸ htypes⟩
  | 5 => exact ⟨_, hx ▸ htables⟩
  | 6 => exact ⟨_, hx ▸ hmemories⟩
  | 7 => exact ⟨_, hx ▸ hglobals⟩
  | id + 8 => trivial

theorem exists_of_lastContent? {subsections : List Subsection} {id : Nat} {content : List UInt8}
    (h : lastContent? subsections id = some content) : ∃ x ∈ subsections, x.content = content := by
  obtain ⟨x, hx, hcontent⟩ := Option.map_eq_some_iff.mp h
  exact ⟨x, List.mem_reverse.mp (List.mem_of_find?_eq_some hx), hcontent⟩

variable {s}

/-- The canonical subsections hold the names. -/
theorem holdsLast_subsections (hindices : s.IndicesFit)
    (hsizes : ∀ x ∈ s.subsections, x.content.length < 2 ^ 32) : s.HoldsLast s.subsections := by
  have hsize : ∀ {id : Nat} {content : List UInt8},
      lastContent? s.subsections id = some content → content.length < 2 ^ 32 := by
    intro id content h
    obtain ⟨x, hx, rfl⟩ := exists_of_lastContent? h
    exact hsizes x hx
  -- a field that is a map of names, and one that is a map of such maps
  have hnames : ∀ {id : Nat} {m : NameMap}, m.Fits →
      lastContent? s.subsections id = mapContent? encodeName m →
        Shows (MapForm NameForm) .empty m (lastContent? s.subsections id) := by
    intro id m hm hcontent
    rw [hcontent]
    exact shows_mapContent? (fun e _ => nameForm_encodeName) hm fun content h =>
      hsize (hcontent.trans h)
  have hindirect : ∀ {id : Nat} {m : IndexMap NameMap}, (m.Fits ∧ ∀ e ∈ m.entries, e.2.Fits) →
      lastContent? s.subsections id = mapContent? (encodeMap encodeName) m →
        Shows (MapForm (MapForm NameForm)) .empty m (lastContent? s.subsections id) := by
    intro id m hm hcontent
    rw [hcontent]
    exact shows_mapContent?
      (fun e he => mapForm_encodeMap (fun _ _ => nameForm_encodeName) (hm.2 e he)) hm.1
      fun content h => hsize (hcontent.trans h)
  refine ⟨?_, hnames hindices.functions (s.lastContent?_subsections 1),
    hindirect hindices.locals (s.lastContent?_subsections 2),
    hindirect hindices.labels (s.lastContent?_subsections 3),
    hnames hindices.types (s.lastContent?_subsections 4),
    hnames hindices.tables (s.lastContent?_subsections 5),
    hnames hindices.memories (s.lastContent?_subsections 6),
    hnames hindices.globals (s.lastContent?_subsections 7)⟩
  have hcontent : lastContent? s.subsections 0 = s.moduleName.map encodeName :=
    s.lastContent?_subsections 0
  rw [hcontent]
  cases hname : s.moduleName with
  | none => rfl
  | some name =>
    rw [hname] at hcontent
    exact ⟨name, rfl, nameForm_encodeName (hsize hcontent)⟩

/-- The canonical form of a name section is decoded to it. -/
theorem decode_encode_of_fits (hindices : s.IndicesFit)
    (hsizes : ∀ x ∈ s.subsections, x.content.length < 2 ^ 32) : decode s.encode = .ok s := by
  have hholds := holdsLast_subsections hindices hsizes
  refine decode_eq_ok_iff.mpr ⟨s.subsections, rfl, fun x hx => ?_, hholds⟩
  obtain ⟨hcontent, hsize⟩ := s.lastContent?_of_mem hx
  refine ⟨?_, hholds.valid s hcontent⟩
  unfold Subsection.Sized
  rw [hsize]
  exact Leb128.written_encode _ (by decide) (hsizes x hx)

end NameSection

end WasmEngine
