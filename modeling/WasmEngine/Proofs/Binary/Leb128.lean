import Mathlib.Data.Nat.Bitwise
import Mathlib.Data.Nat.Digits.Defs
import WasmEngine.Binary.Leb128

/-!
# The form of variable-length numbers

The bytes that are read as a number are its digits to the base 128, lowest first, all but the last
marked as having more behind them, and no more than the width of its type can need. Padding with
zeros is within that. The shortest form of a number has the digits that it needs only.

The loop keeps the bits that it has read in a word and the place of the next ones. That comes to a
recursion on numbers, `decode_cons`, in which each byte leaves seven bits fewer for those after it:
the word is below the place, so the next bits come on top of it, and those that the width cuts off
are missing when the last byte is compared with what was kept of it.
-/
namespace WasmEngine
set_option autoImplicit false

namespace Leb128

section
variable {w shift : Nat} {result : BitVec w} {b : UInt8}

theorem le_promoted (w : Nat) : w ≤ promoted w := by
  unfold promoted
  split
  · omega
  · exact Nat.le_refl w

theorem seven_le_promoted (w : Nat) : 7 ≤ promoted w := by
  unfold promoted
  split
  · decide
  · omega

theorem toNat_low (b : UInt8) : (b &&& 0x7f).toNat = b.toNat % 128 := by
  rw [UInt8.toNat_and]
  exact Nat.and_two_pow_sub_one_eq_mod b.toNat 7

theorem high_eq_zero_iff (b : UInt8) : b &&& 0x80 = 0 ↔ b.toNat < 128 := by
  have hbyte := b.toNat_lt
  have hbit : (b &&& 0x80).toNat = (b.toNat.testBit 7).toNat * 2 ^ 7 := by
    rw [UInt8.toNat_and]
    exact Nat.and_two_pow b.toNat 7
  rw [← UInt8.toNat_inj, hbit, Nat.testBit_eq_decide_div_mod_eq]
  by_cases h : b.toNat / 2 ^ 7 % 2 = 1 <;> simp <;> omega

/-- A digit at its place, in the width that words are computed with and then cut off. -/
theorem toNat_placed (n : Nat) (hshift : shift ≤ w) :
    (((BitVec.ofNat w n).setWidth (promoted w) <<< shift).setWidth w).toNat =
      (n % 2 ^ (w - shift)) <<< shift := by
  have hwide : 2 ^ w ∣ 2 ^ promoted w := Nat.pow_dvd_pow 2 (le_promoted w)
  have hdigit : n % 2 ^ w % 2 ^ promoted w = n % 2 ^ w := by
    apply Nat.mod_eq_of_lt
    exact Nat.lt_of_lt_of_le (Nat.mod_lt _ (Nat.two_pow_pos w))
      (Nat.le_of_dvd (Nat.two_pow_pos _) hwide)
  calc
    _ = n % 2 ^ w * 2 ^ shift % 2 ^ w := by
      simp only [BitVec.toNat_setWidth, BitVec.toNat_shiftLeft, BitVec.toNat_ofNat, hdigit,
        Nat.mod_mod_of_dvd _ hwide, Nat.shiftLeft_eq]
    _ = n * 2 ^ shift % (2 ^ (w - shift) * 2 ^ shift) := by
      rw [Nat.mod_mul_mod, Nat.pow_sub_mul_pow 2 hshift]
    _ = (n % 2 ^ (w - shift)) <<< shift := by rw [Nat.mul_mod_mul_right, Nat.shiftLeft_eq]

/-- The digit comes on top of the result, without the bits that the width has no room for. -/
theorem toNat_withDigit (b : UInt8) (hshift : shift ≤ w) (hresult : result.toNat < 2 ^ shift) :
    (withDigit result shift b).toNat =
      result.toNat + 2 ^ shift * (b.toNat % 128 % 2 ^ (w - shift)) := by
  -- The result lies below the place, so the two have no bit in common.
  have hdisjoint := Nat.shiftLeft_add_eq_or_of_lt hresult (b.toNat % 128 % 2 ^ (w - shift))
  rw [withDigit, BitVec.toNat_or, toNat_placed _ hshift, toNat_low, Nat.or_comm, ← hdisjoint,
    Nat.shiftLeft_eq, Nat.mul_comm, Nat.add_comm]

/-- What comes back from the place is the byte exactly if the width has room for its bits. -/
theorem test_iff (hb : b.toNat < 128) (hshift : shift ≤ w) (hresult : result.toNat < 2 ^ shift) :
    BitVec.ofNat (promoted w) b.toNat =
        (withDigit result shift b).setWidth (promoted w) >>> shift ↔
      b.toNat < 2 ^ (w - shift) := by
  have hbyte : b.toNat % 2 ^ promoted w = b.toNat := by
    apply Nat.mod_eq_of_lt
    exact Nat.lt_of_lt_of_le hb (Nat.pow_le_pow_right Nat.two_pos (seven_le_promoted w))
  have hwide : (withDigit result shift b).toNat < 2 ^ promoted w :=
    Nat.lt_of_lt_of_le (withDigit result shift b).isLt
      (Nat.pow_le_pow_right Nat.two_pos (le_promoted w))
  have hback : (withDigit result shift b).toNat / 2 ^ shift = b.toNat % 2 ^ (w - shift) := by
    rw [toNat_withDigit b hshift hresult, Nat.add_mul_div_left _ _ (Nat.two_pow_pos shift),
      Nat.div_eq_of_lt hresult, Nat.zero_add, Nat.mod_eq_of_lt hb]
  rw [← BitVec.toNat_inj, BitVec.toNat_ofNat, hbyte, BitVec.toNat_ushiftRight,
    BitVec.toNat_setWidth, Nat.mod_eq_of_lt hwide, Nat.shiftRight_eq_div_pow, hback]
  constructor
  · intro h
    rw [h]
    exact Nat.mod_lt _ (Nat.two_pow_pos _)
  · intro h
    exact (Nat.mod_eq_of_lt h).symm

theorem decodeFrom_of_le (bytes : List UInt8) (h : w ≤ shift) :
    decodeFrom result shift bytes = .error .tooManyBytes := by
  cases bytes with
  | nil => rw [decodeFrom, if_neg (Nat.not_lt.mpr h)]
  | cons b rest => rw [decodeFrom, if_neg (Nat.not_lt.mpr h)]

/-- One round of the loop. -/
theorem decodeFrom_cons (rest : List UInt8) (hshift : shift < w)
    (hresult : result.toNat < 2 ^ shift) : decodeFrom result shift (b :: rest) =
      if b.toNat < 128 then
        if b.toNat < 2 ^ (w - shift) then .ok (result.toNat + 2 ^ shift * b.toNat, rest)
        else .error .unusedBits
      else decodeFrom (withDigit result shift b) (shift + 7) rest := by
  rw [decodeFrom, if_pos hshift]
  by_cases hb : b.toNat < 128
  · simp only [if_pos hb, if_pos ((high_eq_zero_iff b).mpr hb), test_iff hb hshift.le hresult]
    by_cases hfits : b.toNat < 2 ^ (w - shift)
    · rw [if_pos hfits, if_pos hfits, toNat_withDigit b hshift.le hresult, Nat.mod_eq_of_lt hb,
        Nat.mod_eq_of_lt hfits]
    · rw [if_neg hfits, if_neg hfits]
  · simp only [if_neg hb, if_neg (mt (high_eq_zero_iff b).mp hb)]

theorem withDigit_lt (b : UInt8) (hshift : shift ≤ w) (hresult : result.toNat < 2 ^ shift) :
    (withDigit result shift b).toNat < 2 ^ (shift + 7) := by
  have hdigit : b.toNat % 128 % 2 ^ (w - shift) < 128 :=
    Nat.lt_of_le_of_lt (Nat.mod_le _ _) (Nat.mod_lt _ (by decide))
  have hplaced : 2 ^ shift * (b.toNat % 128 % 2 ^ (w - shift) + 1) ≤ 2 ^ shift * 128 :=
    Nat.mul_le_mul_left _ hdigit
  rw [Nat.mul_succ] at hplaced
  rw [toNat_withDigit b hshift hresult, Nat.pow_add]
  omega

/-- From a result and a place on, the loop reads a number of the bits that are left. By induction on
the bytes, for every width at once: behind a marked byte both sides are a round further. -/
theorem decodeFrom_eq (bytes : List UInt8) : ∀ {w shift : Nat} {result : BitVec w},
    result.toNat < 2 ^ shift → decodeFrom result shift bytes =
      (decode (w - shift) bytes).map fun r => (result.toNat + 2 ^ shift * r.1, r.2) := by
  induction bytes with
  | nil =>
    intro w shift result hresult
    simp [decode, decodeFrom, Except.map]
  | cons b rest ih =>
    intro w shift result hresult
    by_cases hshift : shift < w
    · have hleft : 0 < w - shift := Nat.sub_pos_of_lt hshift
      have hzero : (0#(w - shift)).toNat < 2 ^ 0 := by simp
      rw [decode, decodeFrom_cons rest hshift hresult, decodeFrom_cons rest hleft hzero]
      by_cases hb : b.toNat < 128
      · by_cases hfits : b.toNat < 2 ^ (w - shift)
        · simp [hb, hfits, Except.map]
        · simp [hb, hfits, Except.map]
      · rw [if_neg hb, if_neg hb, ih (withDigit_lt b hshift.le hresult),
          ih (withDigit_lt b hleft.le hzero), toNat_withDigit b hshift.le hresult,
          toNat_withDigit b hleft.le hzero, Nat.zero_add, Nat.sub_zero, Nat.sub_add_eq]
        cases decode (w - shift - 7) rest with
        | error e => rfl
        | ok r =>
          simp only [Except.map, BitVec.toNat_zero, Nat.pow_zero, Nat.zero_add, Nat.one_mul,
            Nat.pow_add, Nat.mul_add, Nat.mul_assoc, Nat.add_assoc]
    · rw [decode, decodeFrom_of_le _ (by omega), decodeFrom_of_le _ (by omega)]
      rfl

theorem decode_nil (w : Nat) :
    decode w [] = .error (if w = 0 then .tooManyBytes else .unexpectedEnd) := by
  by_cases hw : w = 0 <;> simp [decode, decodeFrom, hw, Nat.pos_of_ne_zero]

/-- The number as a recursion: a byte leaves seven bits fewer for those after it. -/
theorem decode_cons (b : UInt8) (rest : List UInt8) (hw : w ≠ 0) : decode w (b :: rest) =
    if b.toNat < 128 then
      if b.toNat < 2 ^ w then .ok (b.toNat, rest) else .error .unusedBits
    else (decode (w - 7) rest).map fun r => (b.toNat - 128 + 128 * r.1, r.2) := by
  have hpos := Nat.pos_of_ne_zero hw
  have hzero : (0#w).toNat < 2 ^ 0 := by simp
  have hround := decodeFrom_cons (b := b) rest hpos hzero
  rw [Nat.sub_zero, BitVec.toNat_zero, Nat.pow_zero, Nat.zero_add, Nat.one_mul] at hround
  rw [decode, hround]
  by_cases hb : b.toNat < 128
  · rw [if_pos hb, if_pos hb]
  · have hbyte := b.toNat_lt
    rw [if_neg hb, if_neg hb, decodeFrom_eq rest (withDigit_lt b hpos.le hzero),
      toNat_withDigit b hpos.le hzero]
    by_cases h7 : 7 ≤ w
    · have hroom : 2 ^ 7 ≤ 2 ^ w := Nat.pow_le_pow_right Nat.two_pos h7
      have hdigit : b.toNat % 128 % 2 ^ w = b.toNat - 128 := by
        rw [Nat.mod_eq_of_lt (by omega)]
        omega
      simp [hdigit]
    · have hlate : w - 7 = 0 := by omega
      rw [Nat.zero_add, hlate, decode, decodeFrom_of_le _ (Nat.le_refl 0), Except.map, Except.map]

end

/-- The bytes are a form of the number `n` of `w` bits. -/
structure Written (w : Nat) (bytes : List UInt8) (n : Nat) : Prop where
  length : bytes.length ≤ (w + 6) / 7
  marks : ∃ front last, bytes = front ++ [last] ∧ (∀ b ∈ front, 128 ≤ b.toNat) ∧ last.toNat < 128
  value : n = Nat.ofDigits 128 (bytes.map fun b => b.toNat % 128)
  bound : n < 2 ^ w

section
variable {w n : Nat} {b : UInt8} {bytes rest : List UInt8}

theorem not_written_nil : ¬ Written w [] n := by
  rintro ⟨-, ⟨front, last, h, -⟩, -⟩
  cases front <;> cases h

/-- A last byte is the number. -/
theorem written_cons_of_lt (hb : b.toNat < 128) :
    Written w (b :: bytes) n ↔ bytes = [] ∧ n = b.toNat ∧ b.toNat < 2 ^ w ∧ w ≠ 0 := by
  constructor
  · rintro ⟨hlength, ⟨_ | ⟨b', front⟩, last, h, hfront, -⟩, hvalue, hbound⟩
    · obtain ⟨rfl, rfl⟩ := List.cons.inj h
      have hn : n = b.toNat := by
        rw [hvalue, List.map_singleton, Nat.ofDigits_singleton, Nat.mod_eq_of_lt hb]
      refine ⟨rfl, hn, hn ▸ hbound, ?_⟩
      rintro rfl
      rw [List.length_singleton] at hlength
      omega
    · obtain ⟨rfl, -⟩ := List.cons.inj h
      exact absurd (hfront b (.head _)) (Nat.not_le.mpr hb)
  · rintro ⟨rfl, rfl, hbound, hw⟩
    refine ⟨?_, ⟨[], b, rfl, nofun, hb⟩, ?_, hbound⟩
    · rw [List.length_singleton]
      omega
    · rw [List.map_singleton, Nat.ofDigits_singleton, Nat.mod_eq_of_lt hb]

theorem two_pow_eq (hw : 7 ≤ w) : 2 ^ w = 128 * 2 ^ (w - 7) := by
  rw [← Nat.pow_sub_mul_pow 2 hw, Nat.mul_comm]

/-- A marked byte has the seven lowest bits, and the others are behind it. -/
theorem written_cons_of_ge (hb : 128 ≤ b.toNat) :
    Written w (b :: bytes) n ↔ ∃ k, Written (w - 7) bytes k ∧ n = b.toNat - 128 + 128 * k := by
  have hbyte := b.toNat_lt
  constructor
  · rintro ⟨hlength, ⟨_ | ⟨b', front⟩, last, h, hfront, hlast⟩, hvalue, hbound⟩
    · obtain ⟨rfl, -⟩ := List.cons.inj h
      exact absurd hb (Nat.not_le.mpr hlast)
    · obtain ⟨rfl, htail⟩ := List.cons.inj h
      have htail : bytes = front ++ [last] := htail
      subst htail
      rw [List.length_cons, List.length_append, List.length_singleton] at hlength
      rw [List.map_cons, Nat.ofDigits_cons] at hvalue
      rw [two_pow_eq (by omega)] at hbound
      refine ⟨_, ⟨?_, ⟨front, last, rfl, (List.forall_mem_cons.mp hfront).2, hlast⟩, rfl, ?_⟩, ?_⟩
      · rw [List.length_append, List.length_singleton]
        omega
      · omega
      · omega
  · rintro ⟨k, ⟨hlength, ⟨front, last, rfl, hfront, hlast⟩, rfl, hbound⟩, rfl⟩
    rw [List.length_append, List.length_singleton] at hlength
    have hpow := two_pow_eq (show 7 ≤ w by omega)
    refine ⟨?_, ⟨b :: front, last, rfl, List.forall_mem_cons.mpr ⟨hb, hfront⟩, hlast⟩, ?_, ?_⟩
    · rw [List.length_cons, List.length_append, List.length_singleton]
      omega
    · rw [List.map_cons, Nat.ofDigits_cons]
      omega
    · omega

theorem not_written_zero : ¬ Written 0 bytes n := by
  intro h
  obtain rfl : bytes = [] := List.length_eq_zero_iff.mp (Nat.le_zero.mp h.length)
  exact not_written_nil h

/-- A form at the front of some bytes takes the first of them. -/
theorem exists_written_append_iff : (∃ front, Written w front n ∧ b :: bytes = front ++ rest) ↔
    ∃ front, Written w (b :: front) n ∧ bytes = front ++ rest := by
  constructor
  · rintro ⟨_ | ⟨b', front⟩, hfront, h⟩
    · exact absurd hfront not_written_nil
    · obtain ⟨rfl, rfl⟩ := List.cons.inj h
      exact ⟨front, hfront, rfl⟩
  · rintro ⟨front, hfront, rfl⟩
    exact ⟨b :: front, hfront, rfl⟩

/-- A number is read off the front of the bytes exactly if they begin with a form of it. -/
theorem decode_eq_ok_iff (bytes : List UInt8) : ∀ {w n : Nat} {rest : List UInt8},
    decode w bytes = .ok (n, rest) ↔ ∃ front, Written w front n ∧ bytes = front ++ rest := by
  induction bytes with
  | nil =>
    intro w n rest
    rw [decode_nil]
    refine iff_of_false nofun ?_
    rintro ⟨front, hfront, h⟩
    obtain ⟨rfl, -⟩ := List.append_eq_nil_iff.mp h.symm
    exact not_written_nil hfront
  | cons b tail ih =>
    intro w n rest
    rw [exists_written_append_iff]
    by_cases hw : w = 0
    · subst hw
      rw [decode, decodeFrom_of_le _ (Nat.le_refl 0)]
      exact iff_of_false nofun fun ⟨_, hfront, _⟩ => not_written_zero hfront
    rw [decode_cons b tail hw]
    by_cases hb : b.toNat < 128
    · simp only [if_pos hb, written_cons_of_lt hb]
      by_cases hfits : b.toNat < 2 ^ w
      · simp [hfits, hw, eq_comm]
      · simp [hfits]
    · simp only [if_neg hb, written_cons_of_ge (Nat.not_lt.mp hb)]
      cases hrest : decode (w - 7) tail with
      | error e =>
        refine iff_of_false nofun ?_
        rintro ⟨front, ⟨k, hfront, -⟩, h⟩
        cases hrest.symm.trans (ih.mpr ⟨front, hfront, h⟩)
      | ok answer =>
        obtain ⟨k, rest'⟩ := answer
        constructor
        · rintro ⟨⟩
          obtain ⟨front, hfront, h⟩ := ih.mp hrest
          exact ⟨front, ⟨k, hfront, rfl⟩, h⟩
        · rintro ⟨front, ⟨k', hfront, rfl⟩, h⟩
          cases hrest.symm.trans (ih.mpr ⟨front, hfront, h⟩)
          rfl

end

/-- The shortest form of a number. -/
def encode (n : Nat) : List UInt8 :=
  if n < 128 then [UInt8.ofNat n] else UInt8.ofNat (n % 128 + 128) :: encode (n / 128)
termination_by n
decreasing_by omega

theorem length_encode_pos (n : Nat) : 0 < (encode n).length := by
  unfold encode
  split <;> exact Nat.succ_pos _

/-- The shortest form of a number that fits is a form of it. -/
theorem written_encode (n : Nat) : ∀ {w : Nat}, 0 < w → n < 2 ^ w → Written w (encode n) n := by
  induction n using Nat.strongRecOn with
  | ind n ih =>
    intro w hw hn
    rw [encode]
    split
    · next hsmall =>
      have hbyte := UInt8.toNat_ofNat_of_lt' (show n < 256 by omega)
      exact (written_cons_of_lt (by omega)).mpr ⟨rfl, hbyte.symm, by omega, by omega⟩
    · next hlarge =>
      have hbyte := UInt8.toNat_ofNat_of_lt' (show n % 128 + 128 < 256 by omega)
      have h7 : 7 < w := by
        by_contra h
        have hle : 2 ^ w ≤ 2 ^ 7 := Nat.pow_le_pow_right (by decide) (by omega)
        omega
      have hpow := two_pow_eq (show 7 ≤ w by omega)
      refine (written_cons_of_ge (by omega)).mpr ⟨n / 128, ih _ (by omega) (by omega) ?_, ?_⟩
      · omega
      · omega

end Leb128

end WasmEngine
