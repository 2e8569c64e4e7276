import WasmEngine.Proofs.Binary.Readers

/-!
# Subsections

A name section is a row of subsections. It is decoded exactly if each has the size that it tells and
each of a known identifier is filled by its content; what is decoded is the content of the last
subsection of each identifier.
-/
namespace WasmEngine
set_option autoImplicit false

namespace NameSection

/-- A subsection as it is written: its identifier, the bytes of its size, and what they measure. -/
structure Subsection where
  id : UInt8
  size : List UInt8
  content : List UInt8

namespace Subsection

variable (x : Subsection)

def bytes : List UInt8 := x.id :: (x.size ++ x.content)

def Sized : Prop := Leb128.Written 32 x.size x.content.length

/-- The content is one that its identifier asks for. -/
def Valid : Prop :=
  match x.id.toNat with
  | 0 => ∃ name, NameForm name x.content
  | 1 | 4 | 5 | 6 | 7 => ∃ names, MapForm NameForm names x.content
  | 2 | 3 => ∃ names, MapForm (MapForm NameForm) names x.content
  | _ => True

end Subsection

/-- The content of the last subsection of an identifier. -/
def lastContent? (subsections : List Subsection) (id : Nat) : Option (List UInt8) :=
  (subsections.reverse.find? (·.id.toNat == id)).map (·.content)

/-- The value is the content, or the default if there is none. -/
def Shows {α : Type} (form : α → List UInt8 → Prop) (default value : α) :
    Option (List UInt8) → Prop
  | none => value = default
  | some content => form value content

/-- A name, if there is one. -/
def SomeName (name : Option String) (bytes : List UInt8) : Prop :=
  ∃ text, name = some text ∧ NameForm text bytes

/-- The names are those of the last subsection of each identifier. -/
structure HoldsLast (s : NameSection) (subsections : List Subsection) : Prop where
  moduleName : Shows SomeName none s.moduleName (lastContent? subsections 0)
  functions : Shows (MapForm NameForm) .empty s.functions (lastContent? subsections 1)
  locals : Shows (MapForm (MapForm NameForm)) .empty s.locals (lastContent? subsections 2)
  labels : Shows (MapForm (MapForm NameForm)) .empty s.labels (lastContent? subsections 3)
  types : Shows (MapForm NameForm) .empty s.types (lastContent? subsections 4)
  tables : Shows (MapForm NameForm) .empty s.tables (lastContent? subsections 5)
  memories : Shows (MapForm NameForm) .empty s.memories (lastContent? subsections 6)
  globals : Shows (MapForm NameForm) .empty s.globals (lastContent? subsections 7)

/-- What a subsection makes of the names found before it. -/
inductive Replaces (s : NameSection) (content : List UInt8) : Nat → NameSection → Prop
  | moduleName {name : String} (h : NameForm name content) :
      Replaces s content 0 { s with moduleName := some name }
  | functions {names : NameMap} (h : MapForm NameForm names content) :
      Replaces s content 1 { s with functions := names }
  | locals {names : IndexMap NameMap} (h : MapForm (MapForm NameForm) names content) :
      Replaces s content 2 { s with locals := names }
  | labels {names : IndexMap NameMap} (h : MapForm (MapForm NameForm) names content) :
      Replaces s content 3 { s with labels := names }
  | types {names : NameMap} (h : MapForm NameForm names content) :
      Replaces s content 4 { s with types := names }
  | tables {names : NameMap} (h : MapForm NameForm names content) :
      Replaces s content 5 { s with tables := names }
  | memories {names : NameMap} (h : MapForm NameForm names content) :
      Replaces s content 6 { s with memories := names }
  | globals {names : NameMap} (h : MapForm NameForm names content) :
      Replaces s content 7 { s with globals := names }
  | unknown {id : Nat} (h : 7 < id) : Replaces s content id s

/-- What a row of subsections makes of the names found before it. -/
inductive ReplacesAll : NameSection → List Subsection → NameSection → Prop
  | nil (s : NameSection) : ReplacesAll s [] s
  | cons {s s' s'' : NameSection} {x : Subsection} {rest : List Subsection}
      (h : s.Replaces x.content x.id.toNat s') (hrest : ReplacesAll s' rest s'') :
      ReplacesAll s (x :: rest) s''

theorem readMap_names : (readMap readName).Reads (MapForm NameForm) := readMap_reads readName_reads

theorem readMap_indirect : (readMap (readMap readName)).Reads (MapForm (MapForm NameForm)) :=
  readMap_reads readMap_names

section
variable {s s' : NameSection} {content : List UInt8}

/-- A field is replaced by an item that fills the content. -/
theorem replaceBy_eq_ok_iff {α : Type} {item : Reader α} {form : α → List UInt8 → Prop}
    (h : item.Reads form) {set : α → NameSection} :
    (do return set (← readAll item content) : Except DecodeError NameSection) = .ok s' ↔
      ∃ a, form a content ∧ set a = s' := by
  rw [bind_eq_ok]
  refine exists_congr fun a => and_congr (readAll_eq_ok_iff h) ⟨?_, ?_⟩
  · rintro ⟨⟩
    rfl
  · rintro rfl
    rfl

theorem replaces_of_withSubsection (id : Nat) (h : s.withSubsection id content = .ok s') :
    s.Replaces content id s' := by
  match id with
  | 0 =>
    obtain ⟨_, hform, rfl⟩ := (replaceBy_eq_ok_iff readName_reads).mp h
    exact .moduleName hform
  | 1 =>
    obtain ⟨_, hform, rfl⟩ := (replaceBy_eq_ok_iff readMap_names).mp h
    exact .functions hform
  | 2 =>
    obtain ⟨_, hform, rfl⟩ := (replaceBy_eq_ok_iff readMap_indirect).mp h
    exact .locals hform
  | 3 =>
    obtain ⟨_, hform, rfl⟩ := (replaceBy_eq_ok_iff readMap_indirect).mp h
    exact .labels hform
  | 4 =>
    obtain ⟨_, hform, rfl⟩ := (replaceBy_eq_ok_iff readMap_names).mp h
    exact .types hform
  | 5 =>
    obtain ⟨_, hform, rfl⟩ := (replaceBy_eq_ok_iff readMap_names).mp h
    exact .tables hform
  | 6 =>
    obtain ⟨_, hform, rfl⟩ := (replaceBy_eq_ok_iff readMap_names).mp h
    exact .memories hform
  | 7 =>
    obtain ⟨_, hform, rfl⟩ := (replaceBy_eq_ok_iff readMap_names).mp h
    exact .globals hform
  | id + 8 =>
    cases h
    exact .unknown (by omega)

theorem Replaces.withSubsection_eq {id : Nat} (h : s.Replaces content id s') :
    s.withSubsection id content = .ok s' := by
  cases h with
  | moduleName h => exact (replaceBy_eq_ok_iff readName_reads).mpr ⟨_, h, rfl⟩
  | functions h | types h | tables h | memories h | globals h =>
    exact (replaceBy_eq_ok_iff readMap_names).mpr ⟨_, h, rfl⟩
  | locals h | labels h => exact (replaceBy_eq_ok_iff readMap_indirect).mpr ⟨_, h, rfl⟩
  | unknown h =>
    match id with
    | id + 8 => rfl

theorem withSubsection_eq_ok_iff (id : Nat) :
    s.withSubsection id content = .ok s' ↔ s.Replaces content id s' :=
  ⟨replaces_of_withSubsection id, Replaces.withSubsection_eq⟩

end

theorem lastContent?_append (subsections : List Subsection) (x : Subsection) (id : Nat) :
    lastContent? (subsections ++ [x]) id =
      if x.id.toNat = id then some x.content else lastContent? subsections id := by
  unfold lastContent?
  rw [List.reverse_append, List.reverse_singleton, List.singleton_append, List.find?_cons]
  by_cases hid : x.id.toNat = id
  · rw [if_pos hid, beq_iff_eq.mpr hid]
    rfl
  · rw [if_neg hid, beq_eq_false_iff_ne.mpr hid]

theorem holdsLast_nil : HoldsLast {} [] := ⟨rfl, rfl, rfl, rfl, rfl, rfl, rfl, rfl⟩

/-- A further subsection decides its own field and no other. -/
theorem HoldsLast.append {s s' : NameSection} {subsections : List Subsection} {x : Subsection}
    (h : s.HoldsLast subsections) (hx : s.Replaces x.content x.id.toNat s') :
    s'.HoldsLast (subsections ++ [x]) := by
  generalize hid : x.id.toNat = id at hx
  have hlast : ∀ j, lastContent? (subsections ++ [x]) j =
      if id = j then some x.content else lastContent? subsections j := by
    intro j
    rw [lastContent?_append, hid]
  obtain ⟨hname, hfunctions, hlocals, hlabels, htypes, htables, hmemories, hglobals⟩ := h
  cases hx with
  | moduleName hnew =>
    constructor <;> rw [hlast] <;> first | exact ⟨_, rfl, hnew⟩ | assumption
  | unknown hlarge =>
    constructor <;> rw [hlast, if_neg (by omega)] <;> assumption
  | _ hnew =>
    constructor <;> rw [hlast] <;> first | exact hnew | assumption

theorem ReplacesAll.holdsLast {s s' : NameSection} {subsections : List Subsection}
    (h : ReplacesAll s subsections s') : ∀ {before : List Subsection}, s.HoldsLast before →
      s'.HoldsLast (before ++ subsections) := by
  induction h with
  | nil s =>
    intro before hs
    rwa [List.append_nil]
  | @cons _ _ _ x rest hx _ ih =>
    intro before hs
    have hrest := ih (hs.append hx)
    rwa [List.append_assoc, List.singleton_append] at hrest

/-- The content is valid exactly if it replaces something. -/
theorem valid_iff (s : NameSection) (x : Subsection) :
    x.Valid ↔ ∃ s', s.Replaces x.content x.id.toNat s' := by
  unfold Subsection.Valid
  generalize x.id.toNat = id
  constructor
  · intro h
    match id with
    | 0 => exact h.elim fun _ h => ⟨_, .moduleName h⟩
    | 1 => exact h.elim fun _ h => ⟨_, .functions h⟩
    | 2 => exact h.elim fun _ h => ⟨_, .locals h⟩
    | 3 => exact h.elim fun _ h => ⟨_, .labels h⟩
    | 4 => exact h.elim fun _ h => ⟨_, .types h⟩
    | 5 => exact h.elim fun _ h => ⟨_, .tables h⟩
    | 6 => exact h.elim fun _ h => ⟨_, .memories h⟩
    | 7 => exact h.elim fun _ h => ⟨_, .globals h⟩
    | id + 8 => exact ⟨s, .unknown (by omega)⟩
  · rintro ⟨s', h⟩
    cases h with
    | unknown h =>
      match id with
      | id + 8 => trivial
    | _ h => exact ⟨_, h⟩

theorem ReplacesAll.valid {s s' : NameSection} {subsections : List Subsection}
    (h : ReplacesAll s subsections s') : ∀ x ∈ subsections, x.Valid := by
  induction h with
  | nil => exact nofun
  | @cons s _ _ x _ hx _ ih => exact List.forall_mem_cons.mpr ⟨(valid_iff s x).mpr ⟨_, hx⟩, ih⟩

theorem exists_replacesAll {subsections : List Subsection} (h : ∀ x ∈ subsections, x.Valid) :
    ∀ s : NameSection, ∃ s', ReplacesAll s subsections s' := by
  induction subsections with
  | nil => exact fun s => ⟨s, .nil s⟩
  | cons x rest ih =>
    intro s
    obtain ⟨hx, hrest⟩ := List.forall_mem_cons.mp h
    obtain ⟨s', hs'⟩ := (valid_iff s x).mp hx
    obtain ⟨s'', hs''⟩ := ih hrest s'
    exact ⟨s'', .cons hs' hs''⟩

theorem shows_unique {α : Type} {form : α → List UInt8 → Prop} {default a a' : α}
    {content : Option (List UInt8)} (h : Shows form default a content)
    (h' : Shows form default a' content)
    (hform : ∀ {bytes a a'}, form a bytes → form a' bytes → a = a') : a = a' := by
  cases content with
  | none => exact Eq.trans h (Eq.symm h')
  | some bytes => exact hform h h'

theorem someName_unique {bytes : List UInt8} {name name' : Option String}
    (h : SomeName name bytes) (h' : SomeName name' bytes) : name = name' := by
  obtain ⟨text, rfl, h⟩ := h
  obtain ⟨text', rfl, h'⟩ := h'
  rw [form_unique readName_reads h h']

/-- The names are determined by the subsections. -/
theorem HoldsLast.unique {s s' : NameSection} {subsections : List Subsection}
    (h : s.HoldsLast subsections) (h' : s'.HoldsLast subsections) : s = s' := by
  cases s
  cases s'
  congr 1
  · exact shows_unique h.moduleName h'.moduleName someName_unique
  · exact shows_unique h.functions h'.functions (form_unique readMap_names)
  · exact shows_unique h.locals h'.locals (form_unique readMap_indirect)
  · exact shows_unique h.labels h'.labels (form_unique readMap_indirect)
  · exact shows_unique h.types h'.types (form_unique readMap_names)
  · exact shows_unique h.tables h'.tables (form_unique readMap_names)
  · exact shows_unique h.memories h'.memories (form_unique readMap_names)
  · exact shows_unique h.globals h'.globals (form_unique readMap_names)

/-- From no names, a row of subsections leads to the names that its last ones hold. -/
theorem replacesAll_iff {s : NameSection} {subsections : List Subsection} :
    ReplacesAll {} subsections s ↔ (∀ x ∈ subsections, x.Valid) ∧ s.HoldsLast subsections := by
  refine ⟨fun h => ⟨h.valid, h.holdsLast holdsLast_nil⟩, fun ⟨hvalid, hlast⟩ => ?_⟩
  obtain ⟨s', h⟩ := exists_replacesAll hvalid {}
  rwa [hlast.unique (h.holdsLast holdsLast_nil)]

/-- One subsection is decoded after another. -/
theorem decodeFrom_cons (s : NameSection) (id : UInt8) (tail : List UInt8) :
    decodeFrom s (id :: tail) = Leb128.decode 32 tail >>= fun measured =>
      if measured.2.length < measured.1 then .error .unexpectedEnd
      else s.withSubsection id.toNat (measured.2.take measured.1) >>= fun s' =>
        decodeFrom s' (measured.2.drop measured.1) := by
  rw [decodeFrom]
  split
  · next he =>
    rw [he]
    rfl
  · next size content hmeasured =>
    dsimp only
    rw [hmeasured]
    change _ = if content.length < size then _ else _
    split
    · rfl
    · cases s.withSubsection id.toNat (content.take size) with
      | error e => rfl
      | ok s' => rfl

/-- The size that a subsection tells is read off its front. -/
theorem Subsection.Sized.decode_size {x : Subsection} (h : x.Sized) (more : List UInt8) :
    Leb128.decode 32 (x.size ++ (x.content ++ more)) = .ok (x.content.length, x.content ++ more) :=
  (Leb128.decode_eq_ok_iff _).mpr ⟨x.size, h, rfl⟩

/-- A subsection that tells its size is decoded alone, whatever comes behind it. -/
theorem decodeFrom_subsection {s s' : NameSection} {x : Subsection} (hsized : x.Sized)
    (hx : s.Replaces x.content x.id.toNat s') (more : List UInt8) :
    decodeFrom s (x.bytes ++ more) = decodeFrom s' more := by
  rw [Subsection.bytes, List.cons_append, List.append_assoc, decodeFrom_cons, hsized.decode_size]
  change (if (x.content ++ more).length < x.content.length then _ else _) = _
  rw [List.length_append, if_neg (by omega), List.take_left, List.drop_left, hx.withSubsection_eq]
  rfl

theorem decodeFrom_eq_ok_iff (n : Nat) : ∀ {s s' : NameSection} {bytes : List UInt8},
    bytes.length = n → (decodeFrom s bytes = .ok s' ↔
      ∃ subsections : List Subsection, bytes = subsections.flatMap (·.bytes) ∧
        (∀ x ∈ subsections, x.Sized) ∧ ReplacesAll s subsections s') := by
  induction n using Nat.strongRecOn with
  | ind n ih =>
    intro s s' bytes hlength
    constructor
    · intro h
      cases bytes with
      | nil =>
        rw [decodeFrom] at h
        cases h
        exact ⟨[], rfl, List.forall_mem_nil _, .nil s⟩
      | cons id tail =>
        rw [List.length_cons] at hlength
        rw [decodeFrom_cons] at h
        obtain ⟨⟨size, content⟩, hmeasured, hread⟩ := bind_eq_ok.mp h
        obtain ⟨front, hfront, rfl⟩ := (Leb128.decode_eq_ok_iff _).mp hmeasured
        dsimp only at hread
        split at hread
        · cases hread
        next hfits =>
        obtain ⟨s'', hs'', hdecoded⟩ := bind_eq_ok.mp hread
        rw [List.length_append] at hlength
        obtain ⟨rest, hrest, hsized, hall⟩ :=
          (ih (content.drop size).length (by rw [List.length_drop]; omega) rfl).mp hdecoded
        refine ⟨⟨id, front, content.take size⟩ :: rest, ?_, List.forall_mem_cons.mpr ⟨?_, hsized⟩,
          .cons ((withSubsection_eq_ok_iff _).mp hs'') hall⟩
        · rw [List.flatMap_cons, ← hrest, Subsection.bytes, List.cons_append, List.append_assoc,
            List.take_append_drop]
        · unfold Subsection.Sized
          rw [List.length_take, Nat.min_eq_left (Nat.not_lt.mp hfits)]
          exact hfront
    · rintro ⟨subsections, rfl, hsized, h⟩
      cases h with
      | nil => rw [List.flatMap_nil, decodeFrom]
      | @cons _ s'' _ x rest hx hrest =>
        obtain ⟨hxsized, hsized⟩ := List.forall_mem_cons.mp hsized
        rw [List.flatMap_cons, List.length_append, Subsection.bytes, List.length_cons] at hlength
        rw [List.flatMap_cons, decodeFrom_subsection hxsized hx]
        exact (ih _ (by omega) rfl).mpr ⟨rest, rfl, hsized, hrest⟩

/-- The bytes are those of a row of subsections, each of the size that it tells and valid. -/
theorem decode_eq_ok_iff {bytes : List UInt8} {s : NameSection} : decode bytes = .ok s ↔
    ∃ subsections : List Subsection, bytes = subsections.flatMap (·.bytes) ∧
      (∀ x ∈ subsections, x.Sized ∧ x.Valid) ∧ s.HoldsLast subsections := by
  unfold decode
  rw [decodeFrom_eq_ok_iff bytes.length rfl]
  refine exists_congr fun subsections => and_congr_right fun _ => ?_
  rw [replacesAll_iff, forall₂_and, and_assoc]

end NameSection

end WasmEngine
