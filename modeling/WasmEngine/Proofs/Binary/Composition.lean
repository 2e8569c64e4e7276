import WasmEngine.Proofs.Binary.NameSection

/-!
# Name sections one behind the other

From one subsection to the next, the decoder carries nothing but the names found so far, and these
decide no error. So behind an accepted payload, every other one is decoded as it is alone, or
refused with the same error; and what it has a subsection for, it replaces.
-/
namespace WasmEngine
set_option autoImplicit false

namespace NameSection

/-- One of the subsections is for the field of the identifier. -/
def Mentions (subsections : List Subsection) (id : Nat) : Prop :=
  ∃ x ∈ subsections, x.id.toNat = id

/-- The value is the later one if that is mentioned, and else the earlier one. -/
structure Picks {α : Type} (mentioned : Prop) (later earlier value : α) : Prop where
  later : mentioned → value = later
  earlier : ¬ mentioned → value = earlier

/-- Each field is taken as a whole from the later names if one of the subsections is for it, and
from the earlier names if none is. -/
structure Overlays (s earlier later : NameSection) (subsections : List Subsection) : Prop where
  moduleName : Picks (Mentions subsections 0) later.moduleName earlier.moduleName s.moduleName
  functions : Picks (Mentions subsections 1) later.functions earlier.functions s.functions
  locals : Picks (Mentions subsections 2) later.locals earlier.locals s.locals
  labels : Picks (Mentions subsections 3) later.labels earlier.labels s.labels
  types : Picks (Mentions subsections 4) later.types earlier.types s.types
  tables : Picks (Mentions subsections 5) later.tables earlier.tables s.tables
  memories : Picks (Mentions subsections 6) later.memories earlier.memories s.memories
  globals : Picks (Mentions subsections 7) later.globals earlier.globals s.globals

section
variable {s s' : NameSection} {subsections : List Subsection}

theorem decodeFrom_row (h : ReplacesAll s subsections s') (hsized : ∀ x ∈ subsections, x.Sized)
    (more : List UInt8) :
    decodeFrom s (subsections.flatMap (·.bytes) ++ more) = decodeFrom s' more := by
  induction h with
  | nil => rfl
  | cons hx _ ih =>
    obtain ⟨hxsized, hrest⟩ := List.forall_mem_cons.mp hsized
    rw [List.flatMap_cons, List.append_assoc, decodeFrom_subsection hxsized hx, ih hrest]

/-- Behind an accepted payload, the decoding goes on from its names. -/
theorem decode_append {payload : List UInt8} (h : decode payload = .ok s) (more : List UInt8) :
    decode (payload ++ more) = decodeFrom s more := by
  obtain ⟨subsections, rfl, hsized, hall⟩ := (decodeFrom_eq_ok_iff payload.length rfl).mp h
  exact decodeFrom_row hall hsized more

end

section
variable {s t : NameSection} {e : DecodeError}

theorem replaceBy_eq_error_iff {α : Type} {x : Except DecodeError α} {set : α → NameSection} :
    (do return set (← x) : Except DecodeError NameSection) = .error e ↔ x = .error e := by
  cases x with
  | error e' =>
    constructor
    · rintro ⟨⟩
      rfl
    · rintro ⟨⟩
      rfl
  | ok a => exact ⟨nofun, nofun⟩

/-- Whether a subsection is refused is a matter of its identifier and its content alone. -/
theorem withSubsection_eq_error_iff (id : Nat) (content : List UInt8) :
    s.withSubsection id content = .error e ↔ t.withSubsection id content = .error e := by
  match id with
  | 0 | 1 | 2 | 3 | 4 | 5 | 6 | 7 => exact replaceBy_eq_error_iff.trans replaceBy_eq_error_iff.symm
  | id + 8 => exact ⟨nofun, nofun⟩

/-- The names found before decide no error. -/
theorem decodeFrom_eq_error_iff (n : Nat) : ∀ {s t : NameSection} {bytes : List UInt8},
    bytes.length = n → (decodeFrom s bytes = .error e ↔ decodeFrom t bytes = .error e) := by
  induction n using Nat.strongRecOn with
  | ind n ih =>
    intro s t bytes hlength
    cases bytes with
    | nil => simp [decodeFrom]
    | cons id tail =>
      rw [decodeFrom_cons, decodeFrom_cons]
      cases hmeasured : Leb128.decode 32 tail with
      | error e' => exact Iff.rfl
      | ok measured =>
        obtain ⟨size, content⟩ := measured
        have hshorter := Leb128.length_of_decode hmeasured
        rw [List.length_cons] at hlength
        change (if content.length < size then _ else _) = _ ↔
          (if content.length < size then _ else _) = _
        split
        · exact Iff.rfl
        cases hs : s.withSubsection id.toNat (content.take size) with
        | error e' =>
          rw [(withSubsection_eq_error_iff _ _).mp hs]
        | ok s' =>
          cases ht : t.withSubsection id.toNat (content.take size) with
          | error e' => cases hs.symm.trans ((withSubsection_eq_error_iff _ _).mp ht)
          | ok t' => exact ih (content.drop size).length (by rw [List.length_drop]; omega) rfl

end

theorem lastContent?_append_row (before subsections : List Subsection) (id : Nat) :
    lastContent? (before ++ subsections) id =
      (lastContent? subsections id).or (lastContent? before id) := by
  unfold lastContent?
  rw [List.reverse_append, List.find?_append, Option.map_or]

theorem lastContent?_eq_none_iff {subsections : List Subsection} {id : Nat} :
    lastContent? subsections id = none ↔ ¬ Mentions subsections id := by
  simp [lastContent?, Mentions]

/-- What a further row mentions shows as in the row alone, and the rest as before. -/
theorem picks_of_shows {α : Type} {form : α → List UInt8 → Prop} {default a b value : α} {id : Nat}
    {before subsections : List Subsection} (ha : Shows form default a (lastContent? before id))
    (hb : Shows form default b (lastContent? subsections id))
    (hvalue : Shows form default value (lastContent? (before ++ subsections) id))
    (hform : ∀ {bytes a a'}, form a bytes → form a' bytes → a = a') :
    Picks (Mentions subsections id) b a value := by
  rw [lastContent?_append_row] at hvalue
  constructor
  · intro hmentioned
    obtain ⟨content, hcontent⟩ := Option.ne_none_iff_exists'.mp
      fun h => lastContent?_eq_none_iff.mp h hmentioned
    rw [hcontent] at hb hvalue
    exact hform hvalue hb
  · intro hmissing
    rw [lastContent?_eq_none_iff.mpr hmissing] at hvalue
    exact shows_unique hvalue ha hform

theorem HoldsLast.overlays {s a b : NameSection} {before subsections : List Subsection}
    (ha : a.HoldsLast before) (hb : b.HoldsLast subsections)
    (hs : s.HoldsLast (before ++ subsections)) : s.Overlays a b subsections where
  moduleName := picks_of_shows ha.moduleName hb.moduleName hs.moduleName someName_unique
  functions := picks_of_shows ha.functions hb.functions hs.functions (form_unique readMap_names)
  locals := picks_of_shows ha.locals hb.locals hs.locals (form_unique readMap_indirect)
  labels := picks_of_shows ha.labels hb.labels hs.labels (form_unique readMap_indirect)
  types := picks_of_shows ha.types hb.types hs.types (form_unique readMap_names)
  tables := picks_of_shows ha.tables hb.tables hs.tables (form_unique readMap_names)
  memories := picks_of_shows ha.memories hb.memories hs.memories (form_unique readMap_names)
  globals := picks_of_shows ha.globals hb.globals hs.globals (form_unique readMap_names)

theorem IsRow.append {payload more : List UInt8} {before subsections : List Subsection}
    (h : IsRow payload before) (hmore : IsRow more subsections) :
    IsRow (payload ++ more) (before ++ subsections) where
  bytes := by rw [List.flatMap_append, h.bytes, hmore.bytes]
  sized := List.forall_mem_append.mpr ⟨h.sized, hmore.sized⟩
  valid := List.forall_mem_append.mpr ⟨h.valid, hmore.valid⟩

/-- The bytes of a row determine its subsections. -/
theorem row_unique {xs : List Subsection} : ∀ {ys : List Subsection}, (∀ x ∈ xs, x.Sized) →
    (∀ y ∈ ys, y.Sized) → xs.flatMap (·.bytes) = ys.flatMap (·.bytes) → xs = ys := by
  induction xs with
  | nil =>
    intro ys _ _ h
    cases ys with
    | nil => rfl
    | cons y ys => cases h
  | cons x xs ih =>
    intro ys hxs hys h
    cases ys with
    | nil => cases h
    | cons y ys =>
      obtain ⟨hx, hxs⟩ := List.forall_mem_cons.mp hxs
      obtain ⟨hy, hys⟩ := List.forall_mem_cons.mp hys
      rw [List.flatMap_cons, List.flatMap_cons, Subsection.bytes, Subsection.bytes,
        List.cons_append, List.cons_append, List.append_assoc, List.append_assoc] at h
      obtain ⟨hid, htail⟩ := List.cons.inj h
      -- the size and what is behind it are read off the same bytes
      have hread := hx.decode_size (xs.flatMap (·.bytes))
      rw [htail, hy.decode_size] at hread
      obtain ⟨hlength, hbehind⟩ := Prod.mk.inj (Except.ok.inj hread.symm)
      obtain ⟨hcontent, hrest⟩ := List.append_inj hbehind hlength
      rw [hbehind] at htail
      have hsize := List.append_cancel_right htail
      rw [ih hxs hys hrest]
      cases x
      cases y
      cases hid
      cases hsize
      cases hcontent
      rfl

/-- Behind an accepted payload, one that is refused alone is refused with the same error; one that
is decoded alone is decoded, and each field is taken as a whole from what it says alone if it has a
subsection for the field, and from the payload before if it has none. Which subsections it has is
determined by its bytes. -/
theorem sections_compose {payload : List UInt8} {a : NameSection} (h : decode payload = .ok a)
    (more : List UInt8) :
    (∀ e, decode (payload ++ more) = .error e ↔ decode more = .error e) ∧
      ∀ b, decode more = .ok b → ∃ subsections s, IsRow more subsections ∧
        (∀ other, IsRow more other → other = subsections) ∧
        decode (payload ++ more) = .ok s ∧ s.Overlays a b subsections := by
  constructor
  · intro e
    rw [decode_append h]
    exact decodeFrom_eq_error_iff more.length rfl
  · intro b hb
    obtain ⟨before, hbefore, ha⟩ := decode_eq_ok_iff_isRow.mp h
    obtain ⟨subsections, hrow, hlast⟩ := decode_eq_ok_iff_isRow.mp hb
    obtain ⟨s, hs⟩ := exists_holdsLast (hbefore.append hrow).valid
    exact ⟨subsections, s, hrow, fun other hother =>
      row_unique hother.sized hrow.sized (hother.bytes.symm.trans hrow.bytes),
      (decode_of_isRow (hbefore.append hrow)).mpr hs, ha.overlays hlast hs⟩

/-- The name of a module and of its first function. -/
def namedBytes : List UInt8 := [0, 2, 1, 109, 1, 4, 1, 0, 1, 97]

def namedFunction : NameSection := { moduleName := some "m", functions := .ofList [(0, "a")] }

/-- An empty map behind it takes the name of the function away, and an identifier without a size is
refused. -/
theorem empty_map_replaces_names :
    decode namedBytes = .ok namedFunction ∧ decode [1, 1, 0] = .ok {} ∧
      (∃ s, decode (namedBytes ++ [1, 1, 0]) = .ok s ∧
        s.Overlays namedFunction {} [⟨1, [1], [0]⟩] ∧ s.moduleName = some "m" ∧
        s.functions = .empty) ∧
      decode [1, 1, 0, 0] = .error .unexpectedEnd ∧
      decode (namedBytes ++ [1, 1, 0, 0]) = .error .unexpectedEnd := by
  have hnamed : decode namedBytes = .ok namedFunction := by decide +kernel
  have hempty : decode [1, 1, 0] = .ok {} := by decide +kernel
  have hcut : decode [1, 1, 0, 0] = .error .unexpectedEnd := by decide +kernel
  obtain ⟨subsections, s, -, hunique, hs, hoverlays⟩ :=
    (sections_compose hnamed [1, 1, 0]).2 _ hempty
  have hzero : Leb128.Written 32 [0] 0 := (Leb128.written_cons_of_lt (by decide)).mpr (by decide)
  have hone : Leb128.Written 32 [1] 1 := (Leb128.written_cons_of_lt (by decide)).mpr (by decide)
  have hvalid : Subsection.Valid ⟨1, [1], [0]⟩ :=
    ⟨.empty, [], [0], [], hzero, .nil, rfl, fun _ => rfl⟩
  obtain rfl := hunique [⟨1, [1], [0]⟩]
    ⟨rfl, List.forall_mem_singleton.mpr hone, List.forall_mem_singleton.mpr hvalid⟩
  have hname := hoverlays.moduleName.earlier (by simp [Mentions])
  have hfunctions := hoverlays.functions.later (by simp [Mentions])
  exact ⟨hnamed, hempty, ⟨s, hs, hoverlays, hname, hfunctions⟩, hcut,
    ((sections_compose hnamed _).1 _).mpr hcut⟩

end NameSection

end WasmEngine
