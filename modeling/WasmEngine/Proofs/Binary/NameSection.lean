import WasmEngine.Proofs.Binary.Canonical
import WasmEngine.Proofs.Binary.Entries

/-!
# What the name section decoder accepts

The payloads that are decoded are the rows of subsections that tell their sizes and are filled by
their contents, and nothing else; what a row says is what its last subsections say. The canonical
form of names is such a row, and says these names.
-/
namespace WasmEngine
set_option autoImplicit false

namespace NameSection

/-- The payload is the subsections, one behind another. -/
structure IsRow (payload : List UInt8) (subsections : List Subsection) : Prop where
  bytes : payload = subsections.flatMap (·.bytes)
  sized : ∀ x ∈ subsections, x.Sized
  valid : ∀ x ∈ subsections, x.Valid

/-- No subsection of the canonical form is too long for its size to be written. -/
def SizesFit (s : NameSection) : Prop := ∀ x ∈ s.subsections, x.content.length < 2 ^ 32

section
variable {payload : List UInt8} {s : NameSection}

theorem decode_eq_ok_iff_isRow : decode payload = .ok s ↔
    ∃ subsections, IsRow payload subsections ∧ s.HoldsLast subsections := by
  refine decode_eq_ok_iff.trans (exists_congr fun subsections => ?_)
  constructor
  · rintro ⟨hbytes, hall, hholds⟩
    exact ⟨⟨hbytes, fun x hx => (hall x hx).1, fun x hx => (hall x hx).2⟩, hholds⟩
  · rintro ⟨⟨hbytes, hsized, hvalid⟩, hholds⟩
    exact ⟨hbytes, fun x hx => ⟨hsized x hx, hvalid x hx⟩, hholds⟩

/-- Every row says something. -/
theorem exists_holdsLast {subsections : List Subsection} (h : ∀ x ∈ subsections, x.Valid) :
    ∃ s : NameSection, s.HoldsLast subsections :=
  let ⟨s, hs⟩ := exists_replacesAll h {}
  ⟨s, (replacesAll_iff.mp hs).2⟩

theorem decode_of_isRow {subsections : List Subsection} (h : IsRow payload subsections) :
    decode payload = .ok s ↔ s.HoldsLast subsections := by
  refine ⟨fun hs => ?_, fun hs => decode_eq_ok_iff_isRow.mpr ⟨subsections, h, hs⟩⟩
  obtain ⟨s', hs'⟩ := exists_holdsLast h.valid
  have hdecoded := decode_eq_ok_iff_isRow.mpr ⟨subsections, h, hs'⟩
  rwa [Except.ok.inj (hs.symm.trans hdecoded)]

end

/-- A payload is decoded exactly if it is a row of subsections, to what the last ones of the row
hold; with names in canonical form this gives them back; and no more entries of maps are begun than
the payload has bytes, whatever numbers of entries it announces. -/
theorem decoded_exactly (payload : List UInt8) :
    ((∃ s, decode payload = .ok s) ↔ ∃ subsections, IsRow payload subsections) ∧
      (∀ subsections s, IsRow payload subsections →
        (decode payload = .ok s ↔ s.HoldsLast subsections)) ∧
      (∀ s : NameSection, s.IndicesFit → s.SizesFit → s.encode = payload →
        decode payload = .ok s) ∧
      (countEntries payload).result = decode payload ∧
      (countEntries payload).entries ≤ payload.length := by
  refine ⟨⟨?_, ?_⟩, fun _ _ => decode_of_isRow, ?_, countEntries_spec payload⟩
  · rintro ⟨s, hs⟩
    obtain ⟨subsections, hrow, -⟩ := decode_eq_ok_iff_isRow.mp hs
    exact ⟨subsections, hrow⟩
  · rintro ⟨subsections, hrow⟩
    obtain ⟨s, hs⟩ := exists_holdsLast hrow.valid
    exact ⟨s, (decode_of_isRow hrow).mpr hs⟩
  · rintro s hindices hsizes rfl
    exact decode_encode_of_fits hindices hsizes

/-- A padded size, an unknown identifier, and an index and an identifier that occur twice. -/
def repeatingRow : List Subsection :=
  [⟨1, [0x84, 0x00], [1, 0, 1, 97]⟩, ⟨9, [1], [255]⟩, ⟨1, [7], [2, 0, 1, 97, 0, 1, 98]⟩,
    ⟨0, [2], [1, 109]⟩]

def repeatingNames : NameSection :=
  { moduleName := some "m", functions := .ofList [(0, "b")] }

theorem repeating_decoded :
    IsRow (repeatingRow.flatMap (·.bytes)) repeatingRow ∧
      repeatingNames.HoldsLast repeatingRow ∧
      decode (repeatingRow.flatMap (·.bytes)) = .ok repeatingNames ∧
      repeatingNames.IndicesFit ∧ repeatingNames.SizesFit ∧
      repeatingNames.encode = [0, 2, 1, 109, 1, 4, 1, 0, 1, 98] ∧
      decode [0, 2, 1, 109, 1, 4, 1, 0, 1, 98] = .ok repeatingNames := by
  have hsmall : ∀ b : UInt8, b.toNat < 128 → Leb128.Written 32 [b] b.toNat := fun b hb =>
    (Leb128.written_cons_of_lt hb).mpr ⟨rfl, rfl, by omega, by decide⟩
  have hpadded : Leb128.Written 32 [0x84, 0x00] 4 :=
    (Leb128.written_cons_of_ge (by decide)).mpr
      ⟨0, (Leb128.written_cons_of_lt (by decide)).mpr (by decide), rfl⟩
  have ha : NameForm "a" [1, 97] := ⟨[1], hsmall 1 (by decide), by decide +kernel⟩
  have hb : NameForm "b" [1, 98] := ⟨[1], hsmall 1 (by decide), by decide +kernel⟩
  have hm : NameForm "m" [1, 109] := ⟨[1], hsmall 1 (by decide), by decide +kernel⟩
  have hentry : ∀ {name bytes}, NameForm name bytes →
      EntryForm NameForm (0, name) (0 :: bytes) := fun h => ⟨[0], _, hsmall 0 (by decide), h, rfl⟩
  have hone : MapForm NameForm (.ofList [(0, "a")]) [1, 0, 1, 97] :=
    ⟨[(0, "a")], [1], _, hsmall 1 (by decide), .cons (hentry ha) .nil, rfl,
      IndexMap.get?_ofList [(0, "a")]⟩
  have htwo : MapForm NameForm (.ofList [(0, "b")]) [2, 0, 1, 97, 0, 1, 98] :=
    ⟨[(0, "a"), (0, "b")], [2], _, hsmall 2 (by decide),
      .cons (hentry ha) (.cons (hentry hb) .nil), rfl, IndexMap.get?_ofList [(0, "a"), (0, "b")]⟩
  have hrow : IsRow (repeatingRow.flatMap (·.bytes)) repeatingRow := by
    refine ⟨rfl, ?_, ?_⟩
    · exact List.forall_mem_cons.mpr ⟨hpadded, List.forall_mem_cons.mpr ⟨hsmall 1 (by decide),
        List.forall_mem_cons.mpr ⟨hsmall 7 (by decide), List.forall_mem_singleton.mpr
          (hsmall 2 (by decide))⟩⟩⟩
    · exact List.forall_mem_cons.mpr ⟨⟨_, hone⟩, List.forall_mem_cons.mpr ⟨trivial,
        List.forall_mem_cons.mpr ⟨⟨_, htwo⟩, List.forall_mem_singleton.mpr ⟨_, hm⟩⟩⟩⟩
  have hholds : repeatingNames.HoldsLast repeatingRow :=
    ⟨⟨_, rfl, hm⟩, htwo, rfl, rfl, rfl, rfl, rfl, rfl⟩
  have hindices : repeatingNames.IndicesFit := by
    constructor <;> decide +kernel
  have hsizes : repeatingNames.SizesFit := by
    unfold SizesFit
    decide +kernel
  have hencode : repeatingNames.encode = [0, 2, 1, 109, 1, 4, 1, 0, 1, 98] := by decide +kernel
  exact ⟨hrow, hholds, ((decoded_exactly _).2.1 _ _ hrow).mpr hholds, hindices, hsizes, hencode,
    (decoded_exactly _).2.2.1 _ hindices hsizes hencode⟩

end NameSection

end WasmEngine
