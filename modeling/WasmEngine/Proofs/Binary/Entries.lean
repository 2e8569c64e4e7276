import WasmEngine.Proofs.Binary.Subsections

/-!
# The number of entries

The counting readers do what the readers of the name section do and count the map entries that they
begin to read. Whatever number of entries a map announces, they begin no more than there are bytes:
an entry that is read takes some, and the first one that is not ends the decoding.
-/
namespace WasmEngine
set_option autoImplicit false

/-- A result, and the number of map entries that were begun for it. -/
structure Counted (α : Type) where
  result : Except DecodeError α
  entries : Nat

namespace Counted

variable {α β : Type}

/-- A result for which no entry is read. -/
def free (result : Except DecodeError α) : Counted α := ⟨result, 0⟩

def andThen (x : Counted α) (f : α → Counted β) : Counted β :=
  match x.result with
  | .error e => ⟨.error e, x.entries⟩
  | .ok a => ⟨(f a).result, x.entries + (f a).entries⟩

theorem result_andThen (x : Counted α) (f : α → Counted β) :
    (x.andThen f).result = x.result >>= fun a => (f a).result := by
  unfold andThen
  cases x.result <;> rfl

/-- No more than `n` entries are begun, and a result comes with a number of entries that satisfies
`Q`. -/
structure Spends (x : Counted α) (n : Nat) (Q : α → Nat → Prop) : Prop where
  begun : x.entries ≤ n
  ended : ∀ a, x.result = .ok a → Q a x.entries

theorem spends_free {result : Except DecodeError α} (n : Nat) {Q : α → Nat → Prop}
    (h : ∀ a, result = .ok a → Q a 0) : (free result).Spends n Q :=
  ⟨Nat.zero_le n, h⟩

section
variable {x : Counted α} {n : Nat} {Q : α → Nat → Prop}

theorem Spends.mono {n' : Nat} {Q' : α → Nat → Prop} (h : x.Spends n Q) (hn : n ≤ n')
    (hQ : ∀ a k, Q a k → Q' a k) : x.Spends n' Q' :=
  ⟨Nat.le_trans h.begun hn, fun a ha => hQ a _ (h.ended a ha)⟩

/-- What comes after a computation may spend what that has left. -/
theorem Spends.andThen {f : α → Counted β} {R : β → Nat → Prop} (h : x.Spends n Q)
    (hf : ∀ a k, k ≤ n → Q a k → (f a).Spends (n - k) fun b j => R b (k + j)) :
    (x.andThen f).Spends n R := by
  have hbegun := h.begun
  unfold Counted.andThen
  cases hx : x.result with
  | error e => exact ⟨hbegun, nofun⟩
  | ok a =>
    have hrest := hf a x.entries hbegun (h.ended a hx)
    refine ⟨?_, hrest.ended⟩
    have hmore := hrest.begun
    dsimp only
    omega

end

end Counted

abbrev CountedReader (α : Type) := List UInt8 → Counted (α × List UInt8)

namespace NameSection

open Counted

section
variable {α : Type} (item : CountedReader α)

def countMany : Nat → CountedReader (List α)
  | 0, bytes => free (.ok ([], bytes))
  | n + 1, bytes =>
    (Counted.mk (.ok ()) 1).andThen fun _ =>
      (item bytes).andThen fun (a, bytes) =>
        (countMany n bytes).andThen fun (rest, bytes) => free (.ok (a :: rest, bytes))

def countEntry : CountedReader (Nat × α) := fun bytes =>
  (free (Leb128.decode 32 bytes)).andThen fun (i, bytes) =>
    (item bytes).andThen fun (a, bytes) => free (.ok ((i, a), bytes))

def countMap : CountedReader (IndexMap α) := fun bytes =>
  (free (Leb128.decode 32 bytes)).andThen fun (count, bytes) =>
    (countMany (countEntry item) count bytes).andThen fun (entries, bytes) =>
      free (.ok (.ofList entries, bytes))

def countAll (bytes : List UInt8) : Counted α :=
  (item bytes).andThen fun (a, rest) =>
    free (if rest.isEmpty then .ok a else .error .sizeMismatch)

end

def countName : CountedReader String := fun bytes => free (readName bytes)

/-- A subsection that replaces a field. -/
def countField {α : Type} (item : CountedReader α) (set : α → NameSection)
    (content : List UInt8) : Counted NameSection :=
  (countAll item content).andThen fun a => free (.ok (set a))

def countSubsection (s : NameSection) (id : Nat) (content : List UInt8) : Counted NameSection :=
  match id with
  | 0 => countField countName (fun name => { s with moduleName := some name }) content
  | 1 => countField (countMap countName) ({ s with functions := · }) content
  | 2 => countField (countMap (countMap countName)) ({ s with locals := · }) content
  | 3 => countField (countMap (countMap countName)) ({ s with labels := · }) content
  | 4 => countField (countMap countName) ({ s with types := · }) content
  | 5 => countField (countMap countName) ({ s with tables := · }) content
  | 6 => countField (countMap countName) ({ s with memories := · }) content
  | 7 => countField (countMap countName) ({ s with globals := · }) content
  | _ => free (.ok s)

def countFrom (s : NameSection) (bytes : List UInt8) : Counted NameSection :=
  match bytes with
  | [] => free (.ok s)
  | id :: tail =>
    match h : Leb128.decode 32 tail with
    | .error e => free (.error e)
    | .ok (size, content) =>
      have := Leb128.length_of_decode h
      if content.length < size then free (.error .unexpectedEnd)
      else (countSubsection s id.toNat (content.take size)).andThen fun s =>
        countFrom s (content.drop size)
termination_by bytes.length
decreasing_by
  simp only [List.length_drop, List.length_cons]
  omega

/-- The decoding of a name section with its entries counted. -/
def countEntries (payload : List UInt8) : Counted NameSection := countFrom {} payload

/-- A counting reader does what a reader does. -/
def Agrees {α : Type} (item : CountedReader α) (reader : Reader α) : Prop :=
  ∀ bytes, (item bytes).result = reader bytes

theorem countName_agrees : Agrees countName readName := fun _ => rfl

section
variable {α : Type} {item : CountedReader α} {reader : Reader α} (h : Agrees item reader)
include h

theorem countMany_agrees (n : Nat) : Agrees (countMany item n) (readMany reader n) := by
  induction n with
  | zero => exact fun _ => rfl
  | succ n ih =>
    intro bytes
    rw [countMany, readMany, result_andThen]
    change ((item bytes).andThen _).result = _
    rw [result_andThen, h]
    congr 1
    funext read
    obtain ⟨a, rest⟩ := read
    rw [result_andThen, ih]
    rfl

theorem countEntry_agrees : Agrees (countEntry item) (readEntry reader) := by
  intro bytes
  unfold countEntry readEntry
  rw [result_andThen]
  congr 1
  funext read
  obtain ⟨i, rest⟩ := read
  rw [result_andThen, h]
  rfl

theorem countMap_agrees : Agrees (countMap item) (readMap reader) := by
  intro bytes
  unfold countMap readMap
  rw [result_andThen]
  congr 1
  funext read
  obtain ⟨count, rest⟩ := read
  rw [result_andThen, countMany_agrees (countEntry_agrees h)]
  rfl

theorem result_countField (set : α → NameSection) (content : List UInt8) :
    (countField item set content).result = do return set (← readAll reader content) := by
  unfold countField countAll readAll
  rw [result_andThen, result_andThen, h]
  rfl

end

theorem result_countSubsection (s : NameSection) (id : Nat) (content : List UInt8) :
    (countSubsection s id content).result = s.withSubsection id content := by
  have hnames := countMap_agrees countName_agrees
  have hindirect := countMap_agrees hnames
  match id with
  | 0 => exact result_countField countName_agrees _ content
  | 1 => exact result_countField hnames _ content
  | 2 => exact result_countField hindirect _ content
  | 3 => exact result_countField hindirect _ content
  | 4 => exact result_countField hnames _ content
  | 5 => exact result_countField hnames _ content
  | 6 => exact result_countField hnames _ content
  | 7 => exact result_countField hnames _ content
  | _ + 8 => rfl

theorem countFrom_cons (s : NameSection) (id : UInt8) (tail : List UInt8) :
    countFrom s (id :: tail) = (free (Leb128.decode 32 tail)).andThen fun measured =>
      if measured.2.length < measured.1 then free (.error .unexpectedEnd)
      else (countSubsection s id.toNat (measured.2.take measured.1)).andThen fun s' =>
        countFrom s' (measured.2.drop measured.1) := by
  rw [countFrom]
  unfold Counted.andThen free
  split
  · next he =>
    rw [he]
  · next size content hmeasured =>
    dsimp only
    rw [hmeasured]
    simp only [Nat.zero_add]

/-- To count entries changes nothing. -/
theorem result_countFrom (n : Nat) : ∀ (s : NameSection) {bytes : List UInt8},
    bytes.length = n → (countFrom s bytes).result = decodeFrom s bytes := by
  induction n using Nat.strongRecOn with
  | ind n ih =>
    intro s bytes hlength
    cases bytes with
    | nil =>
      rw [countFrom, decodeFrom]
      rfl
    | cons id tail =>
      rw [countFrom_cons, decodeFrom_cons, result_andThen]
      change Leb128.decode 32 tail >>= _ = _
      cases hmeasured : Leb128.decode 32 tail with
      | error e => rfl
      | ok measured =>
        have hshorter := Leb128.length_of_decode hmeasured
        rw [List.length_cons] at hlength
        change Counted.result (if _ then _ else _) = if _ then _ else _
        split
        · rfl
        rw [result_andThen, result_countSubsection]
        refine congrArg (s.withSubsection _ _ >>= ·) (funext fun s' => ?_)
        exact ih _ (by rw [List.length_drop]; omega) s' rfl

/-- A reader begins no more entries than there are bytes, and fewer than it has taken if it ends
well. -/
def Thrifty {α : Type} (item : CountedReader α) : Prop :=
  ∀ bytes, (item bytes).Spends bytes.length fun read k => k + read.2.length < bytes.length

theorem countName_thrifty : Thrifty countName := by
  refine fun bytes => spends_free _ fun (name, rest) h => ?_
  obtain ⟨_, ⟨size, hsize, rfl⟩, rfl⟩ := (readName_reads _ _ _).mp h
  have hsome : size ≠ [] := fun hnil => Leb128.not_written_nil (hnil ▸ hsize)
  have hpos := List.length_pos_iff.mpr hsome
  rw [List.length_append, List.length_append]
  dsimp only
  omega

/-- A number takes a byte at least, and no entry. -/
theorem decode_spends (bytes : List UInt8) (n : Nat) :
    (free (Leb128.decode 32 bytes)).Spends n
      fun read k => k = 0 ∧ read.2.length < bytes.length :=
  spends_free n fun _ h => ⟨rfl, Leb128.length_of_decode h⟩

section
variable {α : Type} {item : CountedReader α} (h : Thrifty item)
include h

theorem countEntry_thrifty : Thrifty (countEntry item) := by
  refine fun bytes => (decode_spends bytes _).andThen fun (i, rest) k _ ⟨hk, hrest⟩ => ?_
  dsimp only at hrest ⊢
  refine ((h rest).mono (by omega) fun _ _ hread => hread).andThen fun (a, rest') j _ hread => ?_
  refine spends_free _ ?_
  rintro _ ⟨⟩
  dsimp only at hread ⊢
  omega

/-- Of the entries that are announced, all but the last one that is begun have taken bytes. -/
theorem countMany_spends (n : Nat) : ∀ bytes, (countMany item n bytes).Spends (bytes.length + 1)
    fun read k => k + read.2.length ≤ bytes.length := by
  induction n with
  | zero =>
    refine fun bytes => spends_free _ ?_
    rintro _ ⟨⟩
    exact Nat.le_of_eq (Nat.zero_add _)
  | succ n ih =>
    intro bytes
    rw [countMany]
    have hone : (Counted.mk (.ok ()) 1).Spends (bytes.length + 1) fun _ k => k = 1 :=
      ⟨Nat.le_add_left _ _, fun _ _ => rfl⟩
    refine hone.andThen fun _ k _ hk => ?_
    refine ((h bytes).mono (by omega) fun _ _ hread => hread).andThen
      fun (a, rest) j _ hread => ?_
    dsimp only at hread ⊢
    refine ((ih rest).mono (by omega) fun _ _ hread => hread).andThen
      fun (items, rest') i _ hrest => ?_
    refine spends_free _ ?_
    rintro _ ⟨⟩
    dsimp only at hrest ⊢
    omega

theorem countMap_thrifty : Thrifty (countMap item) := by
  refine fun bytes => (decode_spends bytes _).andThen fun (count, rest) k _ ⟨hk, hrest⟩ => ?_
  dsimp only at hrest ⊢
  refine ((countMany_spends (countEntry_thrifty h) count rest).mono (by omega)
    fun _ _ hread => hread).andThen fun (entries, rest') j _ hread => ?_
  refine spends_free _ ?_
  rintro _ ⟨⟩
  dsimp only at hread ⊢
  omega

/-- What must be filled exactly spends no more entries than it has bytes. -/
theorem countField_spends (set : α → NameSection) (content : List UInt8) :
    (countField item set content).Spends content.length fun _ k => k ≤ content.length := by
  have hall : (countAll item content).Spends content.length fun _ k => k ≤ content.length := by
    refine (h content).andThen fun (a, rest) k _ hread => spends_free _ fun _ _ => ?_
    dsimp only at hread
    omega
  exact hall.andThen fun _ k _ hk => spends_free _ fun _ _ => hk

end

theorem countSubsection_spends (s : NameSection) (id : Nat) (content : List UInt8) :
    (countSubsection s id content).Spends content.length fun _ k => k ≤ content.length := by
  have hnames := countMap_thrifty countName_thrifty
  have hindirect := countMap_thrifty hnames
  match id with
  | 0 => exact countField_spends countName_thrifty _ content
  | 1 => exact countField_spends hnames _ content
  | 2 => exact countField_spends hindirect _ content
  | 3 => exact countField_spends hindirect _ content
  | 4 => exact countField_spends hnames _ content
  | 5 => exact countField_spends hnames _ content
  | 6 => exact countField_spends hnames _ content
  | 7 => exact countField_spends hnames _ content
  | _ + 8 => exact spends_free _ fun _ _ => Nat.zero_le _

theorem countFrom_spends (n : Nat) : ∀ (s : NameSection) {bytes : List UInt8},
    bytes.length = n → (countFrom s bytes).Spends bytes.length fun _ k => k ≤ bytes.length := by
  induction n using Nat.strongRecOn with
  | ind n ih =>
    intro s bytes hlength
    cases bytes with
    | nil =>
      rw [countFrom]
      exact spends_free _ fun _ _ => Nat.le_refl _
    | cons id tail =>
      rw [countFrom_cons]
      refine (decode_spends tail _).andThen fun (size, content) k _ ⟨hk, hshorter⟩ => ?_
      rw [List.length_cons] at hlength ⊢
      dsimp only at hshorter ⊢
      split
      · exact spends_free _ nofun
      next hfits =>
      have htake : (content.take size).length = size := List.length_take_of_le (by omega)
      refine ((countSubsection_spends s id.toNat (content.take size)).mono (by omega)
        fun _ _ hspent => hspent).andThen fun s' j _ hspent => ?_
      have hdrop : (content.drop size).length = content.length - size := List.length_drop
      exact (ih _ (by omega) s' rfl).mono (by omega) fun _ i hi => by omega

/-- The decoding with its entries counted is the decoding, and begins no more entries than the
payload has bytes. -/
theorem countEntries_spec (payload : List UInt8) :
    (countEntries payload).result = decode payload ∧
      (countEntries payload).entries ≤ payload.length :=
  ⟨result_countFrom _ {} rfl, (countFrom_spends _ {} rfl).begun⟩

end NameSection

end WasmEngine
