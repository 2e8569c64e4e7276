import WasmEngine.Binary.Error

/-!
# Variable-length numbers

Unsigned LEB128: seven bits a byte, lowest first, every byte but the last with its high bit set. A
number of `w` bits may be padded with zeros, but not beyond the bytes that `w` bits can need.
-/
namespace WasmEngine
set_option autoImplicit false

namespace Leb128

/-- The width that words of `w` bits are computed with: narrow ones are promoted to 32 bits. -/
def promoted (w : Nat) : Nat := if w < 32 then 32 else w

/-- The result with the seven low bits of the byte at the given place, less those beyond the width. -/
def withDigit {w : Nat} (result : BitVec w) (shift : Nat) (b : UInt8) : BitVec w :=
  let digit := BitVec.ofNat w (b &&& 0x7f).toNat
  result ||| (digit.setWidth (promoted w) <<< shift).setWidth w

/-- The loop over the bytes: the result so far, and the place of the next seven bits. -/
def decodeFrom {w : Nat} (result : BitVec w) (shift : Nat) : Reader Nat
  | [] => .error (if shift < w then .unexpectedEnd else .tooManyBytes)
  | b :: rest =>
    if shift < w then
      let result := withDigit result shift b
      if b &&& 0x80 = 0 then
        -- Bits of the last byte that do not fit the width must be zero: shifted back, the result
        -- holds the ones that did.
        if BitVec.ofNat (promoted w) b.toNat = result.setWidth (promoted w) >>> shift then
          .ok (result.toNat, rest)
        else .error .unusedBits
      else decodeFrom result (shift + 7) rest
    else .error .tooManyBytes

/-- Reads a number of `w` bits. -/
def decode (w : Nat) : Reader Nat := decodeFrom 0#w 0

theorem length_of_decodeFrom {w shift n : Nat} {result : BitVec w} {bytes rest : List UInt8}
    (h : decodeFrom result shift bytes = .ok (n, rest)) : rest.length < bytes.length := by
  induction bytes generalizing result shift with
  | nil => simp [decodeFrom] at h
  | cons b tail ih =>
    unfold decodeFrom at h
    split at h
    · simp only at h
      split at h
      · split at h <;> simp_all
      · exact Nat.lt_succ_of_lt (ih h)
    · simp at h

/-- A number takes at least one byte. -/
theorem length_of_decode {w n : Nat} {bytes rest : List UInt8}
    (h : decode w bytes = .ok (n, rest)) : rest.length < bytes.length :=
  length_of_decodeFrom h

end Leb128

end WasmEngine
