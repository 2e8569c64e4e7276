/-!
# UTF-8

Decoding of byte strings into Unicode scalar values. The lead byte fixes the number of continuation
bytes and the range of the first of them; the narrowed ranges exclude overlong forms, surrogates
and values beyond the last code point.
-/
namespace WasmEngine
set_option autoImplicit false

namespace Utf8

/-- What a lead byte says about the bytes after it. -/
structure Lead where
  /-- The bits of the scalar value that the lead byte holds. -/
  bits : Nat
  count : Nat
  /-- The range of the first continuation byte. -/
  low : Nat := 0x80
  high : Nat := 0xBF
  deriving DecidableEq, Inhabited

/-- The reading of a lead byte, if it can start a scalar value. -/
def lead? (b : Nat) : Option Lead :=
  if b < 0x80 then some ⟨b, 0, 0x80, 0xBF⟩
  else if b < 0xC2 then none
  else if b < 0xE0 then some ⟨b - 0xC0, 1, 0x80, 0xBF⟩
  else if b = 0xE0 then some ⟨0, 2, 0xA0, 0xBF⟩
  else if b = 0xED then some ⟨0xD, 2, 0x80, 0x9F⟩
  else if b < 0xF0 then some ⟨b - 0xE0, 2, 0x80, 0xBF⟩
  else if b = 0xF0 then some ⟨0, 3, 0x90, 0xBF⟩
  else if b < 0xF4 then some ⟨b - 0xF0, 3, 0x80, 0xBF⟩
  else if b = 0xF4 then some ⟨4, 3, 0x80, 0x8F⟩
  else none

/-- Appends the bits of `count` continuation bytes to `bits`; only the first has its own range. -/
def continue? (low high : Nat) : (count bits : Nat) → List UInt8 → Option (Nat × List UInt8)
  | 0, bits, rest => some (bits, rest)
  | _ + 1, _, [] => none
  | n + 1, bits, c :: rest =>
    if low ≤ c.toNat ∧ c.toNat ≤ high then
      continue? 0x80 0xBF n (bits * 64 + (c.toNat - 0x80)) rest
    else none

/-- The first scalar value and the bytes after it. -/
def next? : List UInt8 → Option (Nat × List UInt8)
  | [] => none
  | b :: rest => (lead? b.toNat).bind fun l => continue? l.low l.high l.count l.bits rest

theorem length_of_continue? {count : Nat} : ∀ {low high bits n : Nat} {bytes rest : List UInt8},
    continue? low high count bits bytes = some (n, rest) → rest.length ≤ bytes.length := by
  induction count with
  | zero =>
    intro low high bits n bytes rest h
    simp only [continue?, Option.some.injEq, Prod.mk.injEq] at h
    simp [h.2]
  | succ count ih =>
    intro low high bits n bytes rest h
    cases bytes with
    | nil => simp [continue?] at h
    | cons c tail =>
      unfold continue? at h
      split at h
      · have := ih h
        simp only [List.length_cons]
        omega
      · simp at h

theorem length_of_next? {bytes rest : List UInt8} {n : Nat} (h : next? bytes = some (n, rest)) :
    rest.length < bytes.length := by
  cases bytes with
  | nil => simp [next?] at h
  | cons b tail =>
    simp only [next?, Option.bind_eq_some_iff] at h
    obtain ⟨l, _, h⟩ := h
    have := length_of_continue? h
    simp only [List.length_cons]
    omega

/-- The scalar values that the bytes encode, if they are UTF-8. -/
def decode? (bytes : List UInt8) : Option (List Char) :=
  match bytes with
  | [] => some []
  | b :: tail =>
    match _h : next? (b :: tail) with
    | none => none
    | some (n, rest) => (decode? rest).map (Char.ofNat n :: ·)
termination_by bytes.length
decreasing_by exact length_of_next? _h

def isValid (bytes : List UInt8) : Bool := (decode? bytes).isSome

end Utf8

end WasmEngine
