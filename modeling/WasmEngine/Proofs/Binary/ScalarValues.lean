import Mathlib.Data.List.Forall2
import WasmEngine.Proofs.Binary.Utf8

/-!
# Texts of scalar values

UTF-8 without the table of lead bytes. A lead byte and up to three continuation bytes carry the bits
of a number, possibly with zeros in front; the form of a scalar value is the shortest bytes that
carry it. The validator accepts the concatenations of such forms and nothing else.
-/
namespace WasmEngine
set_option autoImplicit false

namespace Utf8

/-- The code points that are not surrogates. -/
def IsScalar (v : Nat) : Prop := v < 0xD800 ∨ 0xDFFF < v ∧ v < 0x110000

def IsContinuation (b : UInt8) : Prop := 0x80 ≤ b.toNat ∧ b.toNat < 0xC0

instance : DecidablePred IsContinuation :=
  fun b => inferInstanceAs (Decidable (0x80 ≤ b.toNat ∧ b.toNat < 0xC0))

/-- The bytes carry the bits of a number. The first byte tells how many follow, and each of these
has six bits; nothing is said about zeros in front. -/
inductive Carries : List UInt8 → Nat → Prop
  | one {a : UInt8} (ha : a.toNat < 0x80) : Carries [a] a.toNat
  | two {a b : UInt8} (ha : 0xC0 ≤ a.toNat ∧ a.toNat < 0xE0) (hb : IsContinuation b) :
      Carries [a, b] ((a.toNat - 0xC0) * 64 + (b.toNat - 0x80))
  | three {a b c : UInt8} (ha : 0xE0 ≤ a.toNat ∧ a.toNat < 0xF0) (hb : IsContinuation b)
      (hc : IsContinuation c) :
      Carries [a, b, c] (((a.toNat - 0xE0) * 64 + (b.toNat - 0x80)) * 64 + (c.toNat - 0x80))
  | four {a b c d : UInt8} (ha : 0xF0 ≤ a.toNat ∧ a.toNat < 0xF8) (hb : IsContinuation b)
      (hc : IsContinuation c) (hd : IsContinuation d) :
      Carries [a, b, c, d]
        ((((a.toNat - 0xF0) * 64 + (b.toNat - 0x80)) * 64 + (c.toNat - 0x80)) * 64 +
          (d.toNat - 0x80))

/-- The bytes are the form of a scalar value: no fewer bytes carry it. -/
structure Form (bytes : List UInt8) (v : Nat) : Prop where
  scalar : IsScalar v
  carries : Carries bytes v
  shortest : ∀ other, Carries other v → bytes.length ≤ other.length

/-- The bytes are the forms of the scalar values, one behind another. -/
def IsText (scalars : List Nat) (bytes : List UInt8) : Prop :=
  ∃ parts, List.Forall₂ Form parts scalars ∧ bytes = parts.flatten

theorem toNat_continuation (n : Nat) : (UInt8.ofNat (n % 64 + 0x80)).toNat = n % 64 + 0x80 :=
  UInt8.toNat_ofNat_of_lt' (show n % 64 + 0x80 < 256 by omega)

theorem isContinuation_ofNat (n : Nat) : IsContinuation (UInt8.ofNat (n % 64 + 0x80)) := by
  unfold IsContinuation
  rw [toNat_continuation]
  omega

theorem carries_encodeChar (x : Char) : Carries (String.utf8EncodeChar x) x.val.toNat := by
  have hvalid : x.val.toNat < 0xD800 ∨ 0xDFFF < x.val.toNat ∧ x.val.toNat < 0x110000 := x.valid
  have hbyte : ∀ {n : Nat}, n < 256 → (UInt8.ofNat n).toNat = n := UInt8.toNat_ofNat_of_lt'
  unfold String.utf8EncodeChar
  generalize x.val.toNat = v at hvalid ⊢
  dsimp only
  split_ifs with hone htwo hthree
  · have ha := hbyte (show v < 256 by omega)
    have h := Carries.one (a := UInt8.ofNat v) (by omega)
    rwa [ha] at h
  · have ha := hbyte (show v / 64 % 32 + 0xC0 < 256 by omega)
    have h := Carries.two (a := UInt8.ofNat (v / 64 % 32 + 0xC0)) (by omega)
      (isContinuation_ofNat v)
    rwa [ha, toNat_continuation, show (v / 64 % 32 + 0xC0 - 0xC0) * 64 + (v % 64 + 0x80 - 0x80) = v
      by omega] at h
  · have ha := hbyte (show v / 4096 % 16 + 0xE0 < 256 by omega)
    have h := Carries.three (a := UInt8.ofNat (v / 4096 % 16 + 0xE0)) (by omega)
      (isContinuation_ofNat (v / 64)) (isContinuation_ofNat v)
    rwa [ha, toNat_continuation, toNat_continuation, show ((v / 4096 % 16 + 0xE0 - 0xE0) * 64 +
      (v / 64 % 64 + 0x80 - 0x80)) * 64 + (v % 64 + 0x80 - 0x80) = v by omega] at h
  · have ha := hbyte (show v / 262144 % 8 + 0xF0 < 256 by omega)
    have h := Carries.four (a := UInt8.ofNat (v / 262144 % 8 + 0xF0)) (by omega)
      (isContinuation_ofNat (v / 4096)) (isContinuation_ofNat (v / 64)) (isContinuation_ofNat v)
    rwa [ha, toNat_continuation, toNat_continuation, toNat_continuation,
      show (((v / 262144 % 8 + 0xF0 - 0xF0) * 64 + (v / 4096 % 64 + 0x80 - 0x80)) * 64 +
        (v / 64 % 64 + 0x80 - 0x80)) * 64 + (v % 64 + 0x80 - 0x80) = v by omega] at h

theorem length_encodeChar (x : Char) : (String.utf8EncodeChar x).length =
    if x.val.toNat ≤ 0x7F then 1 else if x.val.toNat ≤ 0x7FF then 2
      else if x.val.toNat ≤ 0xFFFF then 3 else 4 := by
  unfold String.utf8EncodeChar
  dsimp only
  split_ifs <;> rfl

/-- Fewer bytes than the encoding has do not carry the value. -/
theorem length_encodeChar_le {bytes : List UInt8} {x : Char} (h : Carries bytes x.val.toNat) :
    (String.utf8EncodeChar x).length ≤ bytes.length := by
  rw [length_encodeChar]
  generalize x.val.toNat = v at h ⊢
  cases h with
  | one ha =>
    rw [if_pos (by omega)]
    exact Nat.le_refl 1
  | two ha hb =>
    unfold IsContinuation at hb
    simp only [List.length_cons, List.length_nil]
    split_ifs <;> omega
  | three ha hb hc =>
    unfold IsContinuation at hb hc
    simp only [List.length_cons, List.length_nil]
    split_ifs <;> omega
  | four ha hb hc hd =>
    simp only [List.length_cons, List.length_nil]
    split_ifs <;> omega

/-- As many bytes carry a number in one way only. -/
theorem carries_unique {bytes bytes' : List UInt8} {v v' : Nat} (h : Carries bytes v)
    (h' : Carries bytes' v') (hv : v = v') (hlength : bytes.length = bytes'.length) :
    bytes = bytes' := by
  have hbyte : ∀ {a a' : UInt8}, a.toNat = a'.toNat → a = a' := UInt8.toNat_inj.mp
  cases h with
  | @one a ha =>
    cases h' with
    | @one a' ha' => rw [hbyte hv]
    | _ => cases hlength
  | @two a b ha hb =>
    cases h' with
    | @two a' b' ha' hb' =>
      unfold IsContinuation at hb hb'
      rw [hbyte (show a.toNat = a'.toNat by omega), hbyte (show b.toNat = b'.toNat by omega)]
    | _ => cases hlength
  | @three a b c ha hb hc =>
    cases h' with
    | @three a' b' c' ha' hb' hc' =>
      unfold IsContinuation at hb hb' hc hc'
      rw [hbyte (show a.toNat = a'.toNat by omega), hbyte (show b.toNat = b'.toNat by omega),
        hbyte (show c.toNat = c'.toNat by omega)]
    | _ => cases hlength
  | @four a b c d ha hb hc hd =>
    cases h' with
    | @four a' b' c' d' ha' hb' hc' hd' =>
      unfold IsContinuation at hb hb' hc hc' hd hd'
      rw [hbyte (show a.toNat = a'.toNat by omega), hbyte (show b.toNat = b'.toNat by omega),
        hbyte (show c.toNat = c'.toNat by omega), hbyte (show d.toNat = d'.toNat by omega)]
    | _ => cases hlength

/-- The encoding of a scalar value is its form. -/
theorem form_iff {bytes : List UInt8} {v : Nat} :
    Form bytes v ↔ ∃ x : Char, x.val.toNat = v ∧ String.utf8EncodeChar x = bytes := by
  constructor
  · rintro ⟨hscalar, hcarries, hshortest⟩
    obtain ⟨x, rfl⟩ := exists_char hscalar
    have hle := hshortest _ (carries_encodeChar x)
    have hge := length_encodeChar_le hcarries
    exact ⟨x, rfl, carries_unique (carries_encodeChar x) hcarries rfl (Nat.le_antisymm hge hle)⟩
  · rintro ⟨x, rfl, rfl⟩
    exact ⟨x.valid, carries_encodeChar x, fun other => length_encodeChar_le⟩

theorem isText_iff {scalars : List Nat} {bytes : List UInt8} :
    IsText scalars bytes ↔ ∃ chars, decode? bytes = some chars ∧
      scalars = chars.map fun x => x.val.toNat := by
  simp only [decode?_eq_some_iff]
  constructor
  · rintro ⟨parts, hparts, rfl⟩
    induction hparts with
    | nil => exact ⟨[], rfl, rfl⟩
    | cons hform _ ih =>
      obtain ⟨x, rfl, rfl⟩ := form_iff.mp hform
      obtain ⟨chars, hencoded, rfl⟩ := ih
      exact ⟨x :: chars, by rw [List.flatten_cons, hencoded, encode_cons], rfl⟩
  · rintro ⟨chars, rfl, rfl⟩
    refine ⟨chars.map String.utf8EncodeChar, ?_, rfl⟩
    rw [List.forall₂_map_left_iff, List.forall₂_map_right_iff, List.forall₂_same]
    exact fun x _ => form_iff.mpr ⟨x, rfl, rfl⟩

theorem decode?_of_next? {bytes rest : List UInt8} {v : Nat} (h : next? bytes = some (v, rest)) :
    decode? bytes = (decode? rest).map (Char.ofNat v :: ·) := by
  cases bytes with
  | nil => cases h
  | cons b tail => rw [decode?, h]

/-- What stands behind an encoding is decoded as without it. -/
theorem decode?_encode_append (chars : List Char) (bytes : List UInt8) :
    decode? (encode chars ++ bytes) = (decode? bytes).map (chars ++ ·) := by
  induction chars with
  | nil => exact Option.map_id'.symm
  | cons x chars ih =>
    rw [encode_cons, List.append_assoc, decode?_of_next? (next?_encode x _), ih, Option.map_map]
    rw [show Char.ofNat x.val.toNat = x from Char.ofNat_toNat x]
    rfl

/-- A byte string is accepted exactly if it is a text of scalar values, which are then determined;
behind an accepted string, another one is accepted exactly if it is accepted alone. -/
theorem texts_accepted_exactly (bytes : List UInt8) :
    (isValid bytes = true ↔ ∃ scalars, IsText scalars bytes) ∧
      (∀ scalars scalars', IsText scalars bytes → IsText scalars' bytes → scalars = scalars') ∧
      (isValid bytes = true → ∀ more, isValid (bytes ++ more) = true ↔ isValid more = true) := by
  refine ⟨?_, ?_, ?_⟩
  · rw [isValid, Option.isSome_iff_exists]
    simp only [isText_iff]
    constructor
    · rintro ⟨chars, h⟩
      exact ⟨_, chars, h, rfl⟩
    · rintro ⟨_, chars, h, rfl⟩
      exact ⟨chars, h⟩
  · intro scalars scalars' h h'
    obtain ⟨chars, hchars, rfl⟩ := isText_iff.mp h
    obtain ⟨chars', hchars', rfl⟩ := isText_iff.mp h'
    rw [Option.some.inj (hchars.symm.trans hchars')]
  · intro h more
    obtain ⟨chars, hchars⟩ := Option.isSome_iff_exists.mp h
    rw [decode?_eq_some_iff.mp hchars, isValid, decode?_encode_append, Option.isSome_map]
    rfl

/-- Behind a text of one scalar value, the three bytes that would carry a surrogate. -/
theorem accent_accepted_alone :
    isValid [0xC3, 0xA9] = true ∧ IsText [0xE9] [0xC3, 0xA9] ∧
      (∀ scalars, IsText scalars [0xC3, 0xA9] → scalars = [0xE9]) ∧
      Carries [0xED, 0xA0, 0x80] 0xD800 ∧
      isValid ([0xC3, 0xA9] ++ [0xED, 0xA0, 0x80]) = false := by
  have htext : IsText [0xE9] [0xC3, 0xA9] :=
    ⟨[[0xC3, 0xA9]], .cons (form_iff.mpr ⟨Char.ofNat 0xE9, rfl, rfl⟩) .nil, rfl⟩
  have hsurrogate : isValid [0xED, 0xA0, 0x80] = false := by
    rw [isValid, decode?]
    rfl
  obtain ⟨haccepted, hunique, hmore⟩ := texts_accepted_exactly [0xC3, 0xA9]
  have hvalid := haccepted.mpr ⟨_, htext⟩
  refine ⟨hvalid, htext, fun scalars h => hunique _ _ h htext, ?_, ?_⟩
  · exact .three (by decide) (by decide) (by decide)
  · rw [Bool.eq_false_iff, Ne, hmore hvalid, hsurrogate]
    exact Bool.false_ne_true

end Utf8

end WasmEngine
