import WasmEngine.Binary.NameSection
import WasmEngine.Proofs.Binary.Leb128
import WasmEngine.Proofs.Binary.Utf8
import WasmEngine.Proofs.IndexMap

/-!
# The forms of names and maps

Each reader of the name section reads off the front of the bytes exactly the forms of its items: a
name is its length and its bytes, an entry an index and an item, a map the number of its entries and
the entries.
-/
namespace WasmEngine
set_option autoImplicit false

/-- An item is read off the front of the bytes exactly if they begin with a form of it. -/
def Reader.Reads {α : Type} (item : Reader α) (form : α → List UInt8 → Prop) : Prop :=
  ∀ bytes a rest, item bytes = .ok (a, rest) ↔ ∃ front, form a front ∧ bytes = front ++ rest

namespace NameSection

def NameForm (name : String) (bytes : List UInt8) : Prop :=
  ∃ size, Leb128.Written 32 size (Utf8.encode name.toList).length ∧
    bytes = size ++ Utf8.encode name.toList

section
variable {α : Type} (form : α → List UInt8 → Prop)

def EntryForm (e : Nat × α) (bytes : List UInt8) : Prop :=
  ∃ index item, Leb128.Written 32 index e.1 ∧ form e.2 item ∧ bytes = index ++ item

/-- One item after another. -/
inductive ManyForm : List α → List UInt8 → Prop
  | nil : ManyForm [] []
  | cons {a : α} {front : List UInt8} {rest : List α} {bytes : List UInt8} (h : form a front)
      (hrest : ManyForm rest bytes) : ManyForm (a :: rest) (front ++ bytes)

/-- A map is written as any list of entries in which the last one of an index is the one of the
map. -/
def MapForm (map : IndexMap α) (bytes : List UInt8) : Prop :=
  ∃ entries count content, Leb128.Written 32 count entries.length ∧
    ManyForm (EntryForm form) entries content ∧ bytes = count ++ content ∧
      ∀ i, map.get? i = entries.reverse.lookup i

end

section
variable {ε α β : Type} {x : Except ε α} {f : α → Except ε β} {b : β}

theorem bind_eq_ok : (x >>= f) = .ok b ↔ ∃ a, x = .ok a ∧ f a = .ok b := by
  cases x with
  | error e => exact ⟨nofun, fun ⟨_, h, _⟩ => nomatch h⟩
  | ok a =>
    refine ⟨fun h => ⟨a, rfl, h⟩, ?_⟩
    rintro ⟨_, ⟨⟩, h⟩
    exact h

end

theorem readName_reads : readName.Reads NameForm := by
  intro bytes name rest
  unfold readName
  rw [bind_eq_ok]
  constructor
  · rintro ⟨⟨size, tail⟩, hsize, h⟩
    obtain ⟨front, hfront, rfl⟩ := (Leb128.decode_eq_ok_iff bytes).mp hsize
    dsimp only at h
    split at h
    · cases h
    next hlength =>
    split at h
    · cases h
    next chars hchars =>
    cases h
    have hcontent := Utf8.decode?_eq_some_iff.mp hchars
    have hencoded : (Utf8.encode (String.ofList chars).toList) = tail.take size := by
      rw [String.toList_ofList, hcontent]
    refine ⟨front ++ tail.take size, ⟨front, ?_, by rw [hencoded]⟩, ?_⟩
    · rw [hencoded, List.length_take, Nat.min_eq_left (Nat.not_lt.mp hlength)]
      exact hfront
    · rw [List.append_assoc, List.take_append_drop]
  · rintro ⟨_, ⟨size, hsize, rfl⟩, rfl⟩
    refine ⟨(_, Utf8.encode name.toList ++ rest), (Leb128.decode_eq_ok_iff _).mpr
      ⟨size, hsize, by rw [List.append_assoc]⟩, ?_⟩
    dsimp only
    rw [List.length_append, if_neg (by omega), List.take_left, List.drop_left,
      Utf8.decode?_eq_some_iff.mpr rfl]
    dsimp only
    rw [String.ofList_toList]
    rfl

section
variable {α : Type} {item : Reader α} {form : α → List UInt8 → Prop}

theorem readEntry_reads (h : item.Reads form) : (readEntry item).Reads (EntryForm form) := by
  intro bytes e rest
  unfold readEntry
  simp only [bind_eq_ok]
  constructor
  · rintro ⟨⟨i, tail⟩, hi, ⟨a, rest'⟩, ha, ⟨⟩⟩
    obtain ⟨index, hindex, rfl⟩ := (Leb128.decode_eq_ok_iff _).mp hi
    obtain ⟨front, hfront, rfl⟩ := (h _ _ _).mp ha
    exact ⟨index ++ front, ⟨index, front, hindex, hfront, rfl⟩, (List.append_assoc ..).symm⟩
  · rintro ⟨_, ⟨index, front, hindex, hfront, rfl⟩, rfl⟩
    rw [List.append_assoc]
    exact ⟨_, (Leb128.decode_eq_ok_iff _).mpr ⟨index, hindex, rfl⟩, _,
      (h _ _ _).mpr ⟨front, hfront, rfl⟩, rfl⟩

/-- As many items are read as announced. -/
theorem readMany_eq_ok_iff (h : item.Reads form) (n : Nat) : ∀ {bytes rest : List UInt8}
    {items : List α}, readMany item n bytes = .ok (items, rest) ↔
      ∃ front, (ManyForm form items front ∧ items.length = n) ∧ bytes = front ++ rest := by
  induction n with
  | zero =>
    intro bytes rest items
    rw [readMany]
    constructor
    · rintro ⟨⟩
      exact ⟨[], ⟨.nil, rfl⟩, rfl⟩
    · rintro ⟨front, ⟨hfront, hlength⟩, rfl⟩
      obtain rfl := List.length_eq_zero_iff.mp hlength
      cases hfront
      rfl
  | succ n ih =>
    intro bytes rest items
    rw [readMany]
    simp only [bind_eq_ok]
    constructor
    · rintro ⟨⟨a, tail⟩, ha, ⟨items', rest'⟩, hitems, ⟨⟩⟩
      obtain ⟨front, hfront, rfl⟩ := (h _ _ _).mp ha
      obtain ⟨content, ⟨hcontent, rfl⟩, rfl⟩ := ih.mp hitems
      exact ⟨front ++ content, ⟨.cons hfront hcontent, rfl⟩, (List.append_assoc ..).symm⟩
    · rintro ⟨_, ⟨hitems, hlength⟩, rfl⟩
      cases hitems with
      | nil => cases hlength
      | @cons a front items' content hfront hcontent =>
        rw [List.append_assoc]
        exact ⟨(a, content ++ rest), (h _ _ _).mpr ⟨front, hfront, rfl⟩, (items', rest),
          ih.mpr ⟨content, ⟨hcontent, Nat.succ.inj hlength⟩, rfl⟩, rfl⟩

theorem readMap_reads (h : item.Reads form) : (readMap item).Reads (MapForm form) := by
  intro bytes map rest
  unfold readMap
  simp only [bind_eq_ok]
  constructor
  · rintro ⟨⟨n, tail⟩, hn, ⟨entries, rest'⟩, hentries, ⟨⟩⟩
    obtain ⟨count, hcount, rfl⟩ := (Leb128.decode_eq_ok_iff _).mp hn
    obtain ⟨content, ⟨hcontent, rfl⟩, rfl⟩ :=
      (readMany_eq_ok_iff (readEntry_reads h) _).mp hentries
    exact ⟨count ++ content, ⟨entries, count, content, hcount, hcontent, rfl,
      IndexMap.get?_ofList entries⟩, (List.append_assoc ..).symm⟩
  · rintro ⟨_, ⟨entries, count, content, hcount, hcontent, rfl, hmap⟩, rfl⟩
    obtain rfl : IndexMap.ofList entries = map :=
      IndexMap.ext_get? fun i => (IndexMap.get?_ofList entries i).trans (hmap i).symm
    rw [List.append_assoc]
    exact ⟨_, (Leb128.decode_eq_ok_iff _).mpr ⟨count, hcount, rfl⟩, (entries, rest),
      (readMany_eq_ok_iff (readEntry_reads h) _).mpr ⟨content, ⟨hcontent, rfl⟩, rfl⟩, rfl⟩

/-- An item fills the bytes exactly if they are a form of it. -/
theorem readAll_eq_ok_iff (h : item.Reads form) {bytes : List UInt8} {a : α} :
    readAll item bytes = .ok a ↔ form a bytes := by
  unfold readAll
  rw [bind_eq_ok]
  constructor
  · rintro ⟨⟨a', rest⟩, ha, hall⟩
    obtain ⟨front, hfront, rfl⟩ := (h _ _ _).mp ha
    dsimp only at hall
    split at hall
    · next hempty =>
      cases hall
      obtain rfl := List.isEmpty_iff.mp hempty
      rwa [List.append_nil]
    · cases hall
  · intro ha
    exact ⟨(a, []), (h _ _ _).mpr ⟨bytes, ha, (List.append_nil _).symm⟩, rfl⟩

/-- So the bytes determine the item. -/
theorem form_unique (h : item.Reads form) {bytes : List UInt8} {a a' : α}
    (ha : form a bytes) (ha' : form a' bytes) : a = a' :=
  Except.ok.inj (((readAll_eq_ok_iff h).mpr ha).symm.trans ((readAll_eq_ok_iff h).mpr ha'))

end

end NameSection

end WasmEngine
