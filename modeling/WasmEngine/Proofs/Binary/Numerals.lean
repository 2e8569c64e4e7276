import Mathlib.Algebra.BigOperators.Group.Finset.Basic
import WasmEngine.Proofs.Binary.Leb128

/-!
# Reading variable-length numbers

Which byte strings begin with a number of `w` bits, which number that is, and for which of three
reasons the others are refused. The statements are about positions in the bytes: a number is the sum
of seven bits a byte, it ends at the first byte that is not marked, and it must end within the bytes
that `w` bits can need. A number has one form of each length from its shortest one on.
-/
namespace WasmEngine
set_option autoImplicit false

namespace Leb128

/-- The most bytes that a number of `w` bits is written with: `w / 7`, rounded up. -/
def maxLength (w : Nat) : Nat := (w + 6) / 7

/-- The high bit of a byte is set if the number goes on behind it. -/
def Marked (b : UInt8) : Prop := 128 ≤ b.toNat

instance : DecidablePred Marked := fun b => inferInstanceAs (Decidable (128 ≤ b.toNat))

/-- The number of the first `n` bytes: seven bits a byte, lowest first. -/
def number (bytes : List UInt8) (n : Nat) : Nat :=
  ∑ i ∈ Finset.range n, (bytes.getD i 0).toNat % 128 * 2 ^ (7 * i)

/-- The bytes begin with a number of `w` bits in `n` bytes. -/
structure Begins (w : Nat) (bytes : List UInt8) (v n : Nat) : Prop where
  pos : 0 < n
  within : n ≤ maxLength w
  present : n ≤ bytes.length
  marked : ∀ b ∈ bytes.take (n - 1), Marked b
  last : ∀ b, bytes[n - 1]? = some b → ¬ Marked b
  value : v = number bytes n
  bound : v < 2 ^ w

/-- The bytes end inside a number that may go on. -/
def CutShort (w : Nat) (bytes : List UInt8) : Prop :=
  (∀ b ∈ bytes, Marked b) ∧ bytes.length < maxLength w

/-- The number goes on behind the last byte that it may have. -/
def RunsOn (w : Nat) (bytes : List UInt8) : Prop :=
  maxLength w ≤ bytes.length ∧ ∀ b ∈ bytes.take (maxLength w), Marked b

/-- The bytes are refused with the given text. -/
def Refused (w : Nat) (bytes : List UInt8) (text : String) : Prop :=
  ∃ e, decode w bytes = .error e ∧ e.message = text

/-- The number in `n` bytes, with zeros behind its own digits. -/
def padded : (n v : Nat) → List UInt8
  | 0, _ => []
  | 1, v => [UInt8.ofNat (v % 128)]
  | n + 2, v => UInt8.ofNat (v % 128 + 128) :: padded (n + 1) (v / 128)

/-- The bytes without their marks, as digits to the base 128. -/
def digits (bytes : List UInt8) : Nat := Nat.ofDigits 128 (bytes.map fun b => b.toNat % 128)

section
variable {w v n : Nat} {bytes rest : List UInt8}

theorem number_eq (hn : n ≤ bytes.length) : number bytes n = digits (bytes.take n) := by
  induction n with
  | zero => rfl
  | succ n ih =>
    have hlength : (bytes.take n).length = n := List.length_take_of_le (by omega)
    have hlt : n < bytes.length := hn
    have hdigit : (bytes.getD n 0).toNat % 128 * 2 ^ (7 * n) =
        128 ^ n * (bytes[n].toNat % 128) := by
      rw [List.getD_eq_getElem?_getD, List.getElem?_eq_getElem hlt, Option.getD_some, Nat.pow_mul,
        Nat.mul_comm]
    unfold number digits at ih ⊢
    rw [Finset.sum_range_succ, ih (by omega), List.take_succ_eq_append_getElem hn, List.map_append,
      Nat.ofDigits_append, List.length_map, hlength, hdigit, List.map_singleton,
      Nat.ofDigits_singleton]

theorem begins_iff_written :
    Begins w bytes v n ↔ n ≤ bytes.length ∧ Written w (bytes.take n) v := by
  constructor
  · rintro ⟨hpos, hwithin, hpresent, hmarked, hlast, hvalue, hbound⟩
    have hend : n - 1 < bytes.length := by omega
    have hsplit : bytes.take n = bytes.take (n - 1) ++ [bytes[n - 1]] := by
      rw [← List.take_succ_eq_append_getElem hend, Nat.sub_add_cancel hpos]
    refine ⟨hpresent, ⟨?_, ⟨_, _, hsplit, hmarked, ?_⟩, ?_, hbound⟩⟩
    · rwa [List.length_take_of_le hpresent]
    · exact Nat.not_le.mp (hlast _ (List.getElem?_eq_getElem hend))
    · rw [hvalue, number_eq hpresent]
      rfl
  · rintro ⟨hpresent, ⟨hlength, ⟨front, last, hsplit, hfront, hlast⟩, hvalue, hbound⟩⟩
    have hn := congrArg List.length hsplit
    rw [List.length_take_of_le hpresent] at hlength hn
    rw [List.length_append, List.length_singleton] at hn
    have htake : bytes.take (n - 1) = front := by
      have h := congrArg (List.take (n - 1)) hsplit
      rwa [List.take_take, Nat.min_eq_left (by omega), List.take_left' (by omega)] at h
    have hget : bytes[n - 1]? = some last := by
      have h := congrArg (·[n - 1]?) hsplit
      rwa [List.getElem?_take_of_lt (by omega), List.getElem?_append_right (by omega),
        show n - 1 - front.length = 0 by omega] at h
    refine ⟨by omega, hlength, hpresent, htake ▸ hfront, ?_, ?_, hbound⟩
    · intro b hb
      cases hget.symm.trans hb
      exact Nat.not_le.mpr hlast
    · rw [hvalue, number_eq hpresent]
      rfl

theorem maxLength_sub : maxLength (w - 7) = maxLength w - 1 := by
  unfold maxLength
  omega

theorem maxLength_pos (hw : w ≠ 0) : 0 < maxLength w := by
  unfold maxLength
  omega

/-- Nothing but marked bytes is no number, and for want of bytes only if some could follow. -/
theorem decode_of_marked (h : ∀ b ∈ bytes, Marked b) : decode w bytes =
    .error (if bytes.length < maxLength w then .unexpectedEnd else .tooManyBytes) := by
  induction bytes generalizing w with
  | nil =>
    by_cases hw : w = 0
    · subst hw
      rfl
    · rw [decode_nil, if_neg hw, List.length_nil, if_pos (maxLength_pos hw)]
  | cons b tail ih =>
    obtain ⟨hb, htail⟩ := List.forall_mem_cons.mp h
    by_cases hw : w = 0
    · subst hw
      rfl
    · have hpos := maxLength_pos hw
      rw [decode_cons b tail hw, if_neg (Nat.not_lt.mpr hb), ih htail, maxLength_sub,
        List.length_cons, Except.map]
      simp only [show tail.length < maxLength w - 1 ↔ tail.length + 1 < maxLength w by omega]

/-- Behind marked bytes one that is not marked ends the number, if it is not too late. -/
theorem decode_of_ended {last : UInt8} (h : ∀ b ∈ bytes, Marked b) (hlast : ¬ Marked last) :
    decode w (bytes ++ last :: rest) =
      if maxLength w ≤ bytes.length then .error .tooManyBytes
      else if digits (bytes ++ [last]) < 2 ^ w then .ok (digits (bytes ++ [last]), rest)
      else .error .unusedBits := by
  induction bytes generalizing w with
  | nil =>
    by_cases hw : w = 0
    · subst hw
      rfl
    · have hvalue : digits [last] = last.toNat := by
        unfold digits
        rw [List.map_singleton, Nat.ofDigits_singleton, Nat.mod_eq_of_lt (Nat.not_le.mp hlast)]
      have hpos := maxLength_pos hw
      rw [List.nil_append, decode_cons last rest hw, if_pos (Nat.not_le.mp hlast),
        List.nil_append, hvalue, List.length_nil, if_neg (show ¬ maxLength w ≤ 0 by omega)]
  | cons b front ih =>
    obtain ⟨hb, hfront⟩ := List.forall_mem_cons.mp h
    by_cases hw : w = 0
    · subst hw
      rfl
    · have hpos := maxLength_pos hw
      have hsub := maxLength_sub (w := w)
      have hbyte := b.toNat_lt
      have hvalue : digits (b :: front ++ [last]) =
          b.toNat - 128 + 128 * digits (front ++ [last]) := by
        unfold Marked at hb
        unfold digits
        rw [List.cons_append, List.map_cons, Nat.ofDigits_cons]
        omega
      rw [List.cons_append, decode_cons b _ hw, if_neg (Nat.not_lt.mpr hb), ih hfront, hsub, hvalue,
        List.length_cons]
      by_cases hlate : maxLength w ≤ front.length + 1
      · rw [if_pos hlate, if_pos (by omega), Except.map]
      · rw [if_neg hlate, if_neg (by omega)]
        have hpow := two_pow_eq (w := w) (by unfold maxLength at hlate; omega)
        unfold Marked at hb
        by_cases hfits : digits (front ++ [last]) < 2 ^ (w - 7)
        · rw [if_pos hfits, if_pos (by omega), Except.map]
        · rw [if_neg hfits, if_neg (by omega), Except.map]

/-- Bytes are all marked, or the first one that is not ends a number. -/
theorem marked_or_ended (bytes : List UInt8) : (∀ b ∈ bytes, Marked b) ∨
    ∃ front last rest, bytes = front ++ last :: rest ∧ (∀ b ∈ front, Marked b) ∧ ¬ Marked last := by
  induction bytes with
  | nil => exact .inl (List.forall_mem_nil _)
  | cons b tail ih =>
    by_cases hb : Marked b
    · obtain htail | ⟨front, last, rest, rfl, hfront, hlast⟩ := ih
      · exact .inl (List.forall_mem_cons.mpr ⟨hb, htail⟩)
      · exact .inr ⟨b :: front, last, rest, rfl, List.forall_mem_cons.mpr ⟨hb, hfront⟩, hlast⟩
    · exact .inr ⟨[], b, tail, rfl, List.forall_mem_nil _, hb⟩

theorem length_padded : ∀ n v : Nat, (padded n v).length = n
  | 0, _ => rfl
  | 1, _ => rfl
  | n + 2, v => by rw [padded, List.length_cons, length_padded (n + 1) (v / 128)]

/-- Every number that fits the width and the bytes has a form in them. -/
theorem written_padded (hpos : 0 < n) (hwithin : n ≤ maxLength w) (hv : v < 128 ^ n)
    (hbound : v < 2 ^ w) : Written w (padded n v) v := by
  induction n generalizing w v with
  | zero => exact absurd hpos (Nat.lt_irrefl 0)
  | succ n ih =>
    unfold maxLength at hwithin
    cases n with
    | zero =>
      have hbyte := UInt8.toNat_ofNat_of_lt' (show v % 128 < 256 by omega)
      exact (written_cons_of_lt (by omega)).mpr ⟨rfl, by omega, by omega, by omega⟩
    | succ n =>
      have hbyte := UInt8.toNat_ofNat_of_lt' (show v % 128 + 128 < 256 by omega)
      have hpow := two_pow_eq (show 7 ≤ w by omega)
      refine (written_cons_of_ge (by omega)).mpr ⟨v / 128, ih (Nat.succ_pos n) ?_ ?_ ?_, by omega⟩
      · unfold maxLength
        omega
      · exact Nat.div_lt_of_lt_mul (by rwa [Nat.pow_succ, Nat.mul_comm] at hv)
      · omega

/-- A number has one form of each length. -/
theorem eq_padded_of_written (h : Written w bytes v) : bytes = padded bytes.length v := by
  induction bytes generalizing w v with
  | nil => rfl
  | cons b tail ih =>
    have hbyte := b.toNat_lt
    by_cases hb : b.toNat < 128
    · obtain ⟨rfl, rfl, -⟩ := (written_cons_of_lt hb).mp h
      rw [List.length_singleton, padded, Nat.mod_eq_of_lt hb, UInt8.ofNat_toNat]
    · obtain ⟨k, hk, rfl⟩ := (written_cons_of_ge (Nat.not_lt.mp hb)).mp h
      cases tail with
      | nil => exact absurd hk not_written_nil
      | cons b' tail =>
        have hlow : (b.toNat - 128 + 128 * k) % 128 + 128 = b.toNat := by omega
        have hhigh : (b.toNat - 128 + 128 * k) / 128 = k := by omega
        rw [List.length_cons, List.length_cons, padded, hlow, hhigh, UInt8.ofNat_toNat]
        exact congrArg (b :: ·) (ih hk)

/-- The shortest form has as many bytes as the number has digits. -/
theorem length_encode_le_iff (hn : 0 < n) : (encode v).length ≤ n ↔ v < 128 ^ n := by
  induction n generalizing v with
  | zero => exact absurd hn (Nat.lt_irrefl 0)
  | succ n ih =>
    rw [encode]
    by_cases hsmall : v < 128
    · have hpow : 128 ^ 1 ≤ 128 ^ (n + 1) := Nat.pow_le_pow_right (by decide) (by omega)
      rw [if_pos hsmall, List.length_singleton]
      omega
    · rw [if_neg hsmall, List.length_cons, Nat.add_le_add_iff_right]
      cases n with
      | zero =>
        have hpos := length_encode_pos (v / 128)
        omega
      | succ n =>
        rw [ih (Nat.succ_pos n), Nat.div_lt_iff_lt_mul (by decide), ← Nat.pow_succ]

theorem encode_eq_padded (v : Nat) : encode v = padded (encode v).length v :=
  eq_padded_of_written (written_encode v (Nat.succ_pos v)
    (Nat.lt_of_lt_of_le Nat.lt_two_pow_self (Nat.pow_le_pow_right (by decide) (Nat.le_succ v))))

/-- The forms of a number are its shortest one and those with zeros behind it. -/
theorem begins_iff_padded : Begins w bytes v n ↔
    bytes.take n = padded n v ∧ (encode v).length ≤ n ∧ n ≤ maxLength w ∧ v < 2 ^ w := by
  constructor
  · intro h
    obtain ⟨hpresent, hwritten⟩ := begins_iff_written.mp h
    have hlength : (bytes.take n).length = n := List.length_take_of_le hpresent
    have hform := eq_padded_of_written hwritten
    rw [hlength] at hform
    refine ⟨hform, (length_encode_le_iff h.pos).mpr ?_, h.within, h.bound⟩
    have hdigits : ∀ d ∈ (bytes.take n).map (fun b => b.toNat % 128), d < 128 := by
      intro d hd
      obtain ⟨b, -, rfl⟩ := List.mem_map.mp hd
      exact Nat.mod_lt _ (by decide)
    have hlt := Nat.ofDigits_lt_base_pow_length (show 1 < 128 by decide) hdigits
    rwa [← hwritten.value, List.length_map, hlength] at hlt
  · rintro ⟨hform, hlong, hwithin, hbound⟩
    have hpos : 0 < n := Nat.lt_of_lt_of_le (length_encode_pos v) hlong
    have hlength := congrArg List.length hform
    rw [length_padded, List.length_take] at hlength
    exact begins_iff_written.mpr ⟨by omega, hform ▸
      written_padded hpos hwithin ((length_encode_le_iff hpos).mp hlong) hbound⟩

theorem begins_append {front : List UInt8} {last : UInt8} (hfront : ∀ b ∈ front, Marked b)
    (hlast : ¬ Marked last) (hwithin : front.length < maxLength w)
    (hbound : digits (front ++ [last]) < 2 ^ w) :
    Begins w (front ++ last :: rest) (digits (front ++ [last])) (front.length + 1) := by
  have htake : (front ++ last :: rest).take (front.length + 1) = front ++ [last] := by
    rw [List.take_append, List.take_of_length_le (Nat.le_succ _), Nat.add_sub_cancel_left]
    rfl
  rw [begins_iff_written, htake]
  refine ⟨?_, ⟨?_, ⟨front, last, rfl, hfront, ?_⟩, rfl, hbound⟩⟩
  · rw [List.length_append, List.length_cons]
    omega
  · rw [List.length_append, List.length_singleton]
    exact hwithin
  · exact Nat.not_le.mp hlast

theorem decode_eq_ok_iff_begins :
    decode w bytes = .ok (v, rest) ↔ ∃ n, Begins w bytes v n ∧ rest = bytes.drop n := by
  rw [decode_eq_ok_iff]
  constructor
  · rintro ⟨front, hfront, rfl⟩
    refine ⟨front.length, begins_iff_written.mpr ⟨?_, ?_⟩, List.drop_left.symm⟩
    · rw [List.length_append]
      omega
    · rwa [List.take_left]
  · rintro ⟨n, hbegins, rfl⟩
    exact ⟨bytes.take n, (begins_iff_written.mp hbegins).2, (List.take_append_drop n bytes).symm⟩

theorem decode_eq_unexpectedEnd_iff : decode w bytes = .error .unexpectedEnd ↔ CutShort w bytes := by
  obtain hmarked | ⟨front, last, rest, rfl, hfront, hlast⟩ := marked_or_ended bytes
  · rw [decode_of_marked hmarked]
    by_cases hshort : bytes.length < maxLength w
    · rw [if_pos hshort]
      exact iff_of_true rfl ⟨hmarked, hshort⟩
    · rw [if_neg hshort]
      exact iff_of_false nofun fun h => hshort h.2
  · have hnot : ¬ CutShort w (front ++ last :: rest) := fun h => hlast (h.1 last (by simp))
    rw [decode_of_ended hfront hlast]
    split_ifs <;> simp [hnot]

theorem decode_eq_tooManyBytes_iff : decode w bytes = .error .tooManyBytes ↔ RunsOn w bytes := by
  obtain hmarked | ⟨front, last, rest, rfl, hfront, hlast⟩ := marked_or_ended bytes
  · have htake : ∀ b ∈ bytes.take (maxLength w), Marked b :=
      fun b hb => hmarked b (List.mem_of_mem_take hb)
    rw [decode_of_marked hmarked]
    by_cases hshort : bytes.length < maxLength w
    · rw [if_pos hshort]
      exact iff_of_false nofun fun h => Nat.not_lt.mpr h.1 hshort
    · rw [if_neg hshort]
      exact iff_of_true rfl ⟨Nat.not_lt.mp hshort, htake⟩
  · have hruns : RunsOn w (front ++ last :: rest) ↔ maxLength w ≤ front.length := by
      constructor
      · rintro ⟨-, htake⟩
        by_contra hlate
        refine hlast (htake last (List.mem_take_iff_getElem.mpr ⟨front.length, ?_, ?_⟩))
        · rw [List.length_append, List.length_cons]
          omega
        · rw [List.getElem_append_right (Nat.le_refl _)]
          simp
      · intro hlate
        refine ⟨?_, fun b hb => hfront b ?_⟩
        · rw [List.length_append]
          omega
        · rw [List.take_append_of_le_length hlate] at hb
          exact List.mem_of_mem_take hb
    rw [decode_of_ended hfront hlast, hruns]
    split_ifs with hlate <;> simp [hlate]

/-- A number that ends in time and is too large is what is left. -/
theorem decode_eq_unusedBits_iff : decode w bytes = .error .unusedBits ↔
    (∀ v n, ¬ Begins w bytes v n) ∧ ¬ CutShort w bytes ∧ ¬ RunsOn w bytes := by
  constructor
  · intro h
    refine ⟨fun v n hbegins => ?_, fun hshort => ?_, fun hruns => ?_⟩
    · cases h.symm.trans (decode_eq_ok_iff_begins.mpr ⟨n, hbegins, rfl⟩)
    · cases h.symm.trans (decode_eq_unexpectedEnd_iff.mpr hshort)
    · cases h.symm.trans (decode_eq_tooManyBytes_iff.mpr hruns)
  · rintro ⟨hbegins, hshort, hruns⟩
    obtain hmarked | ⟨front, last, rest, rfl, hfront, hlast⟩ := marked_or_ended bytes
    · exfalso
      by_cases h : bytes.length < maxLength w
      · exact hshort ⟨hmarked, h⟩
      · exact hruns ⟨Nat.not_lt.mp h, fun b hb => hmarked b (List.mem_of_mem_take hb)⟩
    · have hended : decode w (front ++ last :: rest) = _ := decode_of_ended hfront hlast
      split_ifs at hended with hlate hfits
      · exact absurd (decode_eq_tooManyBytes_iff.mp hended) hruns
      · exact absurd (begins_append hfront hlast (Nat.not_le.mp hlate) hfits) (hbegins _ _)
      · exact hended

theorem refused_iff {e : DecodeError} : Refused w bytes e.message ↔ decode w bytes = .error e := by
  have hinjective : ∀ a b : DecodeError, a.message = b.message → a = b := by
    intro a b
    cases a <;> cases b <;> decide
  constructor
  · rintro ⟨e', hdecode, htext⟩
    rw [hdecode, hinjective _ _ htext]
  · intro h
    exact ⟨e, h, rfl⟩

end

/-- What a byte string is read as, and why it is refused. -/
structure ReadsExactly (w : Nat) (bytes : List UInt8) : Prop where
  read : ∀ v rest, decode w bytes = .ok (v, rest) ↔
    ∃ n, Begins w bytes v n ∧ rest = bytes.drop n
  behind : ∀ v n more, Begins w bytes v n → decode w (bytes.take n ++ more) = .ok (v, more)
  everyForm : ∀ v n more, v < 2 ^ w → (encode v).length ≤ n → n ≤ maxLength w →
    decode w (padded n v ++ more) = .ok (v, more)
  shortest : ∀ v, encode v = padded (encode v).length v
  noOtherForm : ∀ v n, Begins w bytes v n → bytes.take n = padded n v ∧ (encode v).length ≤ n
  cutShort : Refused w bytes "unexpected EOF" ↔ CutShort w bytes
  runsOn : Refused w bytes "invalid LEB128 encoding: too many bytes" ↔ RunsOn w bytes
  unusedBits : Refused w bytes "invalid LEB128 encoding: unused bits set" ↔
    (∀ v n, ¬ Begins w bytes v n) ∧ ¬ CutShort w bytes ∧ ¬ RunsOn w bytes

/-- A byte string is read as a number of `w` bits exactly if it begins with one, and then the bytes
behind the number are left and have no influence. The forms of a number, each of which is read, are
its shortest one and those padded with zeros within the bytes that `w` bits can need. Bytes that end
too early, that go on too long, and those that are left are refused, each with its own text. -/
theorem numbers_read_exactly (w : Nat) (bytes : List UInt8) : ReadsExactly w bytes where
  read v rest := decode_eq_ok_iff_begins
  behind v n more h := (decode_eq_ok_iff _).mpr ⟨_, (begins_iff_written.mp h).2, rfl⟩
  everyForm v n more hv hlong hwithin := by
    have hlength := length_padded n v
    have hbegins : Begins w (padded n v ++ more) v n :=
      begins_iff_padded.mpr ⟨List.take_left' hlength, hlong, hwithin, hv⟩
    exact decode_eq_ok_iff_begins.mpr ⟨n, hbegins, (List.drop_left' hlength).symm⟩
  shortest := encode_eq_padded
  noOtherForm v n h := by
    obtain ⟨hform, hlong, -⟩ := begins_iff_padded.mp h
    exact ⟨hform, hlong⟩
  cutShort := (refused_iff (e := .unexpectedEnd)).trans decode_eq_unexpectedEnd_iff
  runsOn := (refused_iff (e := .tooManyBytes)).trans decode_eq_tooManyBytes_iff
  unusedBits := (refused_iff (e := .unusedBits)).trans decode_eq_unusedBits_iff

/-- A number of 16 bits in all its three bytes, a small one padded to as many, and a last byte of
which one bit too many is set. -/
theorem sixteen_bits_read :
    Begins 16 [0x80, 0x80, 0x03, 0xff] 49152 3 ∧
      decode 16 [0x80, 0x80, 0x03, 0xff] = .ok (49152, [0xff]) ∧
      decode 16 ([0x80, 0x80, 0x03] ++ [7]) = .ok (49152, [7]) ∧
      (5 < 2 ^ 16 ∧ (encode 5).length ≤ 3 ∧ 3 ≤ maxLength 16) ∧
      decode 16 ([0x85, 0x80, 0x00] ++ [0xff]) = .ok (5, [0xff]) ∧
      (encode 49152).length ≤ 3 ∧
      Refused 16 [0x80, 0x80, 0x04] "invalid LEB128 encoding: unused bits set" ∧
      ∀ v n, ¬ Begins 16 [0x80, 0x80, 0x04] v n := by
  have hbegins : Begins 16 [0x80, 0x80, 0x03, 0xff] 49152 3 := by
    refine ⟨by decide, by decide, by decide, ?_, ?_, by decide, by decide⟩
    · decide +kernel
    · rintro b ⟨⟩
      decide
  have hfive : (encode 5).length ≤ 3 := (length_encode_le_iff (by decide)).mpr (by decide)
  have hrefused : Refused 16 [0x80, 0x80, 0x04] "invalid LEB128 encoding: unused bits set" :=
    ⟨.unusedBits, by decide, rfl⟩
  have hreads := numbers_read_exactly 16 [0x80, 0x80, 0x03, 0xff]
  exact ⟨hbegins, (hreads.read _ _).mpr ⟨3, hbegins, rfl⟩, hreads.behind _ _ _ hbegins,
    ⟨by decide, hfive, by decide⟩, hreads.everyForm 5 3 _ (by decide) hfive (by decide),
    (hreads.noOtherForm _ _ hbegins).2, hrefused,
    ((numbers_read_exactly 16 _).unusedBits.mp hrefused).1⟩

end Leb128

end WasmEngine
