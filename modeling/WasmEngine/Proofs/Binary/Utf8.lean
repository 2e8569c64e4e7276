import Mathlib.Data.Nat.Basic
import WasmEngine.Binary.Utf8

/-!
# The form of UTF-8

The bytes that are decoded are the encodings of scalar values, one after another, and of no others:
the ranges of the lead bytes and of the bytes that follow them leave out exactly the overlong forms,
the surrogates and what lies behind the last code point.
-/
namespace WasmEngine
set_option autoImplicit false

namespace Utf8

def encode (chars : List Char) : List UInt8 := chars.flatMap String.utf8EncodeChar

section
variable {low high count bits n : Nat} {bytes rest : List UInt8}

theorem continue?_zero : continue? low high 0 bits bytes = some (n, rest) ↔
    bits = n ∧ bytes = rest := by
  rw [continue?, Option.some_inj, Prod.mk.injEq]

theorem continue?_succ : continue? low high (count + 1) bits bytes = some (n, rest) ↔
    ∃ c tail, bytes = c :: tail ∧ low ≤ c.toNat ∧ c.toNat ≤ high ∧
      continue? 0x80 0xBF count (bits * 64 + (c.toNat - 0x80)) tail = some (n, rest) := by
  cases bytes with
  | nil => exact ⟨nofun, fun ⟨_, _, h, _⟩ => nomatch h⟩
  | cons c tail =>
    rw [continue?]
    constructor
    · intro h
      split at h
      · next hrange => exact ⟨c, tail, rfl, hrange.1, hrange.2, h⟩
      · cases h
    · rintro ⟨c', tail', h, hlow, hhigh, hrest⟩
      obtain ⟨rfl, rfl⟩ := List.cons.inj h
      rwa [if_pos ⟨hlow, hhigh⟩]

end

section
variable {b : Nat}

theorem lead?_one (h : b < 0x80) : lead? b = some ⟨b, 0, 0x80, 0xBF⟩ := if_pos h

theorem lead?_two (h : 0xC2 ≤ b) (h' : b < 0xE0) : lead? b = some ⟨b - 0xC0, 1, 0x80, 0xBF⟩ := by
  unfold lead?
  rw [if_neg (by omega), if_neg (by omega), if_pos h']

theorem lead?_three (h : 0xE0 ≤ b) (h' : b < 0xF0) : lead? b = some ⟨b - 0xE0, 2,
    if b = 0xE0 then 0xA0 else 0x80, if b = 0xED then 0x9F else 0xBF⟩ := by
  unfold lead?
  rw [if_neg (by omega), if_neg (by omega), if_neg (by omega)]
  by_cases hfirst : b = 0xE0
  · subst hfirst
    rfl
  by_cases hsurrogates : b = 0xED
  · subst hsurrogates
    rfl
  rw [if_neg hfirst, if_neg hsurrogates, if_pos h', if_neg hfirst, if_neg hsurrogates]

theorem lead?_four (h : 0xF0 ≤ b) (h' : b ≤ 0xF4) : lead? b = some ⟨b - 0xF0, 3,
    if b = 0xF0 then 0x90 else 0x80, if b = 0xF4 then 0x8F else 0xBF⟩ := by
  unfold lead?
  rw [if_neg (by omega), if_neg (by omega), if_neg (by omega), if_neg (by omega),
    if_neg (by omega), if_neg (by omega)]
  by_cases hfirst : b = 0xF0
  · subst hfirst
    rfl
  by_cases hlast : b = 0xF4
  · subst hlast
    rfl
  rw [if_neg hfirst, if_pos (by omega), if_neg hfirst, if_neg hlast]

theorem lead?_none (h : 0x80 ≤ b ∧ b < 0xC2 ∨ 0xF4 < b) : lead? b = none := by
  unfold lead?
  rw [if_neg (by omega)]
  by_cases hlow : b < 0xC2
  · exact if_pos hlow
  rw [if_neg hlow, if_neg (by omega), if_neg (by omega), if_neg (by omega), if_neg (by omega),
    if_neg (by omega), if_neg (by omega), if_neg (by omega)]

end

/-- The scalar value of a number that is one. -/
theorem exists_char {n : Nat} (h : n < 0xD800 ∨ 0xDFFF < n ∧ n < 0x110000) :
    ∃ c : Char, c.val.toNat = n := by
  have hn : n.isValidChar := h
  exact ⟨Char.ofNatAux n hn, rfl⟩

theorem eq_ofNat {b : UInt8} {n : Nat} (h : b.toNat = n) : UInt8.ofNat n = b := by
  rw [← h, UInt8.ofNat_toNat]

section
variable {a b c d : UInt8}

theorem encode_one (ha : a.toNat < 0x80) : ∃ x : Char,
    x.val.toNat = a.toNat ∧ String.utf8EncodeChar x = [a] := by
  obtain ⟨x, hx⟩ := exists_char (n := a.toNat) (by omega)
  refine ⟨x, hx, ?_⟩
  unfold String.utf8EncodeChar
  dsimp only
  rw [hx, if_pos (by omega), UInt8.ofNat_toNat]

theorem encode_two (ha : 0xC2 ≤ a.toNat) (ha' : a.toNat < 0xE0) (hb : 0x80 ≤ b.toNat)
    (hb' : b.toNat ≤ 0xBF) : ∃ x : Char,
      x.val.toNat = (a.toNat - 0xC0) * 64 + (b.toNat - 0x80) ∧
        String.utf8EncodeChar x = [a, b] := by
  obtain ⟨x, hx⟩ := exists_char (n := (a.toNat - 0xC0) * 64 + (b.toNat - 0x80)) (by omega)
  refine ⟨x, hx, ?_⟩
  unfold String.utf8EncodeChar
  dsimp only
  rw [hx, if_neg (by omega), if_pos (by omega), eq_ofNat (b := a) (by omega),
    eq_ofNat (b := b) (by omega)]

/-- Three bytes: what the range of the second one leaves out are overlong forms and surrogates. -/
theorem encode_three (ha : 0xE0 ≤ a.toNat) (ha' : a.toNat < 0xF0)
    (hb : (if a.toNat = 0xE0 then 0xA0 else 0x80) ≤ b.toNat)
    (hb' : b.toNat ≤ if a.toNat = 0xED then 0x9F else 0xBF)
    (hc : 0x80 ≤ c.toNat) (hc' : c.toNat ≤ 0xBF) : ∃ x : Char,
      x.val.toNat = ((a.toNat - 0xE0) * 64 + (b.toNat - 0x80)) * 64 + (c.toNat - 0x80) ∧
        String.utf8EncodeChar x = [a, b, c] := by
  obtain ⟨x, hx⟩ := exists_char
    (n := ((a.toNat - 0xE0) * 64 + (b.toNat - 0x80)) * 64 + (c.toNat - 0x80)) (by
      split at hb <;> split at hb' <;> omega)
  have hlow : 0x80 ≤ b.toNat ∧ b.toNat ≤ 0xBF ∧ (a.toNat = 0xE0 → 0xA0 ≤ b.toNat) := by
    split at hb <;> split at hb' <;> omega
  refine ⟨x, hx, ?_⟩
  unfold String.utf8EncodeChar
  dsimp only
  rw [hx, if_neg (by omega), if_neg (by omega), if_pos (by omega), eq_ofNat (b := a) (by omega),
    eq_ofNat (b := b) (by omega), eq_ofNat (b := c) (by omega)]

/-- Four bytes: what is left out are overlong forms and what lies behind the last code point. -/
theorem encode_four (ha : 0xF0 ≤ a.toNat) (ha' : a.toNat ≤ 0xF4)
    (hb : (if a.toNat = 0xF0 then 0x90 else 0x80) ≤ b.toNat)
    (hb' : b.toNat ≤ if a.toNat = 0xF4 then 0x8F else 0xBF)
    (hc : 0x80 ≤ c.toNat) (hc' : c.toNat ≤ 0xBF) (hd : 0x80 ≤ d.toNat) (hd' : d.toNat ≤ 0xBF) :
    ∃ x : Char, x.val.toNat =
        (((a.toNat - 0xF0) * 64 + (b.toNat - 0x80)) * 64 + (c.toNat - 0x80)) * 64 +
          (d.toNat - 0x80) ∧
        String.utf8EncodeChar x = [a, b, c, d] := by
  have hlow : 0x80 ≤ b.toNat ∧ b.toNat ≤ 0xBF ∧ (a.toNat = 0xF0 → 0x90 ≤ b.toNat) ∧
      (a.toNat = 0xF4 → b.toNat ≤ 0x8F) := by
    split at hb <;> split at hb' <;> omega
  obtain ⟨x, hx⟩ := exists_char (n := (((a.toNat - 0xF0) * 64 + (b.toNat - 0x80)) * 64 +
    (c.toNat - 0x80)) * 64 + (d.toNat - 0x80)) (by omega)
  refine ⟨x, hx, ?_⟩
  unfold String.utf8EncodeChar
  dsimp only
  rw [hx, if_neg (by omega), if_neg (by omega), if_neg (by omega), eq_ofNat (b := a) (by omega),
    eq_ofNat (b := b) (by omega), eq_ofNat (b := c) (by omega), eq_ofNat (b := d) (by omega)]

end

/-- What is read off the front of the bytes is encoded there. -/
theorem exists_of_next? {bytes rest : List UInt8} {n : Nat} (h : next? bytes = some (n, rest)) :
    ∃ x : Char, x.val.toNat = n ∧ bytes = String.utf8EncodeChar x ++ rest := by
  cases bytes with
  | nil => cases h
  | cons a tail =>
    rw [next?] at h
    by_cases hone : a.toNat < 0x80
    · rw [lead?_one hone, Option.bind_some, continue?_zero] at h
      obtain ⟨rfl, rfl⟩ := h
      obtain ⟨x, hx, henc⟩ := encode_one hone
      exact ⟨x, hx, by rw [henc]; rfl⟩
    by_cases hnone : a.toNat < 0xC2 ∨ 0xF4 < a.toNat
    · rw [lead?_none (by omega)] at h
      cases h
    by_cases htwo : a.toNat < 0xE0
    · rw [lead?_two (by omega) htwo, Option.bind_some, continue?_succ] at h
      obtain ⟨b, _, rfl, hb, hb', h⟩ := h
      obtain ⟨rfl, rfl⟩ := continue?_zero.mp h
      obtain ⟨x, hx, henc⟩ := encode_two (by omega) htwo hb hb'
      exact ⟨x, hx, by rw [henc]; rfl⟩
    by_cases hthree : a.toNat < 0xF0
    · rw [lead?_three (by omega) hthree, Option.bind_some, continue?_succ] at h
      obtain ⟨b, _, rfl, hb, hb', h⟩ := h
      obtain ⟨c, _, rfl, hc, hc', h⟩ := continue?_succ.mp h
      obtain ⟨rfl, rfl⟩ := continue?_zero.mp h
      obtain ⟨x, hx, henc⟩ := encode_three (by omega) hthree hb hb' hc hc'
      exact ⟨x, hx, by rw [henc]; rfl⟩
    · rw [lead?_four (by omega) (by omega), Option.bind_some, continue?_succ] at h
      obtain ⟨b, _, rfl, hb, hb', h⟩ := h
      obtain ⟨c, _, rfl, hc, hc', h⟩ := continue?_succ.mp h
      obtain ⟨d, _, rfl, hd, hd', h⟩ := continue?_succ.mp h
      obtain ⟨rfl, rfl⟩ := continue?_zero.mp h
      obtain ⟨x, hx, henc⟩ := encode_four (by omega) (by omega) hb hb' hc hc' hd hd'
      exact ⟨x, hx, by rw [henc]; rfl⟩

/-- The encoding of a scalar value is read off the front of the bytes. -/
theorem next?_encode (x : Char) (rest : List UInt8) :
    next? (String.utf8EncodeChar x ++ rest) = some (x.val.toNat, rest) := by
  have hvalid : x.val.toNat < 0xD800 ∨ 0xDFFF < x.val.toNat ∧ x.val.toNat < 0x110000 := x.valid
  unfold String.utf8EncodeChar
  generalize x.val.toNat = v at hvalid
  dsimp only
  have hbyte : ∀ {n : Nat}, n < 256 → (UInt8.ofNat n).toNat = n := UInt8.toNat_ofNat_of_lt'
  by_cases hone : v ≤ 0x7F
  · rw [if_pos hone, List.singleton_append, next?, hbyte (by omega), lead?_one (by omega),
      Option.bind_some, continue?_zero]
    exact ⟨rfl, rfl⟩
  rw [if_neg hone]
  by_cases htwo : v ≤ 0x7FF
  · rw [if_pos htwo, List.cons_append, next?, hbyte (by omega), lead?_two (by omega) (by omega),
      Option.bind_some]
    dsimp only
    refine continue?_succ.mpr ⟨_, _, rfl, ?_, ?_, continue?_zero.mpr ⟨?_, rfl⟩⟩
    all_goals
      rw [hbyte (by omega)]
      omega
  rw [if_neg htwo]
  by_cases hthree : v ≤ 0xFFFF
  · rw [if_pos hthree, List.cons_append, next?, hbyte (by omega),
      lead?_three (by omega) (by omega), Option.bind_some]
    dsimp only
    refine continue?_succ.mpr ⟨_, _, rfl, ?_, ?_, continue?_succ.mpr ⟨_, _, rfl, ?_, ?_,
      continue?_zero.mpr ⟨?_, rfl⟩⟩⟩
    · rw [hbyte (by omega)]
      split <;> omega
    · rw [hbyte (by omega)]
      split <;> omega
    · rw [hbyte (by omega)]
      omega
    · rw [hbyte (by omega)]
      omega
    · rw [hbyte (by omega), hbyte (by omega)]
      omega
  · rw [if_neg hthree, List.cons_append, next?, hbyte (by omega),
      lead?_four (by omega) (by omega), Option.bind_some]
    dsimp only
    refine continue?_succ.mpr ⟨_, _, rfl, ?_, ?_, continue?_succ.mpr ⟨_, _, rfl, ?_, ?_,
      continue?_succ.mpr ⟨_, _, rfl, ?_, ?_, continue?_zero.mpr ⟨?_, rfl⟩⟩⟩⟩
    · rw [hbyte (by omega)]
      split <;> omega
    · rw [hbyte (by omega)]
      split <;> omega
    · rw [hbyte (by omega)]
      omega
    · rw [hbyte (by omega)]
      omega
    · rw [hbyte (by omega)]
      omega
    · rw [hbyte (by omega)]
      omega
    · rw [hbyte (by omega), hbyte (by omega), hbyte (by omega)]
      omega

theorem encode_cons (x : Char) (chars : List Char) :
    encode (x :: chars) = String.utf8EncodeChar x ++ encode chars := List.flatMap_cons

theorem utf8EncodeChar_ne_nil (x : Char) : String.utf8EncodeChar x ≠ [] := by
  intro h
  have hnext := next?_encode x []
  rw [h] at hnext
  cases hnext

/-- Bytes are decoded exactly if they encode scalar values, and these are the values. -/
theorem decode?_eq_some_iff {bytes : List UInt8} : ∀ {chars : List Char},
    decode? bytes = some chars ↔ bytes = encode chars := by
  induction bytes using decode?.induct with
  | case1 =>
    intro chars
    rw [decode?, Option.some_inj]
    cases chars with
    | nil => exact ⟨fun _ => rfl, fun _ => rfl⟩
    | cons x chars =>
      rw [encode_cons]
      refine ⟨nofun, fun h => absurd (List.append_eq_nil_iff.mp h.symm).1 ?_⟩
      exact utf8EncodeChar_ne_nil x
  | case2 b tail hnext =>
    intro chars
    rw [decode?, hnext]
    refine ⟨nofun, fun h => ?_⟩
    cases chars with
    | nil => cases h
    | cons x chars =>
      rw [h, encode_cons, next?_encode] at hnext
      cases hnext
  | case3 b tail n rest hnext ih =>
    intro chars
    obtain ⟨x, rfl, hbytes⟩ := exists_of_next? hnext
    rw [decode?, hnext]
    dsimp only
    rw [show Char.ofNat x.val.toNat = x from Char.ofNat_toNat x, hbytes, Option.map_eq_some_iff]
    constructor
    · rintro ⟨chars, hchars, rfl⟩
      rw [encode_cons, ih.mp hchars]
    · intro h
      cases chars with
      | nil => exact absurd (List.append_eq_nil_iff.mp h).1 (utf8EncodeChar_ne_nil x)
      | cons y chars =>
        have hsame := congrArg next? h
        rw [encode_cons, next?_encode, next?_encode] at hsame
        obtain ⟨hvalue, hrest⟩ := Prod.mk.inj (Option.some.inj hsame)
        obtain rfl : x = y := Char.ext (UInt32.toNat_inj.mp hvalue)
        exact ⟨chars, ih.mpr hrest, rfl⟩

end Utf8

end WasmEngine
