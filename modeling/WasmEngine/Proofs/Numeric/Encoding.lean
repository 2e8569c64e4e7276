import WasmEngine.Proofs.Numeric.Denotation

/-!
# Numbers of a format

A number of units is one of the format if it has a significand for it and the infinity is above. Such
a number is encoded as it is, so arithmetic whose exact results are numbers of the format does not
round: its operations are those on the units.
-/
namespace WasmEngine
set_option autoImplicit false

theorem roundHalfEven_mul (n : Nat) {den : Nat} (hden : 0 < den) :
    roundHalfEven (n * den) den = n := by
  unfold roundHalfEven
  rw [Nat.mul_mod_left, Nat.mul_div_cancel n hden]
  exact if_neg (by omega)

namespace Format

/-- A number of units that the format has: it has a significand for it, and the infinity is above. -/
structure Encodable (F : Format) (n : Nat) : Prop where
  significand : ∃ k j, k < 2 ^ (F.fractionBits + 1) ∧ n = k * 2 ^ j
  lt : n < 2 ^ F.fractionBits * 2 ^ (2 ^ F.exponentBits - 2)

section
variable {F : Format} {n m : Nat}

/-- The lowest bits for which the significand has no place are zero. -/
theorem Encodable.dvd (h : F.Encodable n) : 2 ^ (n.log2 - F.fractionBits) ∣ n := by
  obtain ⟨k, j, hk, rfl⟩ := h.significand
  by_cases hzero : k * 2 ^ j = 0
  · rw [hzero]
    exact Nat.dvd_zero _
  · have hlt : (k * 2 ^ j).log2 < F.fractionBits + 1 + j := by
      rw [Nat.log2_lt hzero]
      calc
        k * 2 ^ j < 2 ^ (F.fractionBits + 1) * 2 ^ j :=
          Nat.mul_lt_mul_of_pos_right hk (Nat.two_pow_pos j)
        _ = 2 ^ (F.fractionBits + 1 + j) := (Nat.pow_add _ _ _).symm
    exact Nat.dvd_mul_left_of_dvd (Nat.pow_dvd_pow 2 (by omega)) k

/-- The bits below a place are a number of the format. -/
theorem Encodable.mod (h : F.Encodable n) (m : Nat) : F.Encodable (n % 2 ^ m) := by
  refine ⟨?_, (Nat.mod_le _ _).trans_lt h.lt⟩
  obtain ⟨k, j, hk, rfl⟩ := h.significand
  by_cases hj : m ≤ j
  · exact ⟨0, 0, Nat.two_pow_pos _,
      Nat.mod_eq_zero_of_dvd (Nat.dvd_mul_left_of_dvd (Nat.pow_dvd_pow 2 hj) k)⟩
  · refine ⟨k % 2 ^ (m - j), j, (Nat.mod_le _ _).trans_lt hk, ?_⟩
    rw [← Nat.mul_mod_mul_right, ← Nat.pow_add, Nat.sub_add_cancel (by omega)]

theorem mul_two_pow_div (k : Nat) {j m : Nat} (h : j ≤ m) : k * 2 ^ j / 2 ^ m = k / 2 ^ (m - j) := by
  rw [← Nat.mul_div_mul_right k (2 ^ (m - j)) (Nat.two_pow_pos j), ← Nat.pow_add,
    Nat.sub_add_cancel h]

/-- The bits from a place on are a number of the format. -/
theorem Encodable.floor (h : F.Encodable n) (m : Nat) : F.Encodable (n / 2 ^ m * 2 ^ m) := by
  refine ⟨?_, (Nat.div_mul_le_self _ _).trans_lt h.lt⟩
  obtain ⟨k, j, hk, rfl⟩ := h.significand
  by_cases hj : m ≤ j
  · exact ⟨k, j, hk, Nat.div_mul_cancel (Nat.dvd_mul_left_of_dvd (Nat.pow_dvd_pow 2 hj) k)⟩
  · rw [mul_two_pow_div k (by omega)]
    exact ⟨k / 2 ^ (m - j), m, (Nat.div_le_self _ _).trans_lt hk, rfl⟩

/-- A small multiple of a place is a number of the format. -/
theorem encodable_multiple (hm : m < 2 ^ F.exponentBits - 2) (hn : n ≤ 2 ^ F.fractionBits) :
    F.Encodable (n * 2 ^ m) := by
  have hpos := Nat.two_pow_pos F.fractionBits
  refine ⟨⟨n, m, by rw [Nat.pow_succ]; omega, rfl⟩, ?_⟩
  calc
    n * 2 ^ m ≤ 2 ^ F.fractionBits * 2 ^ m := Nat.mul_le_mul_right _ hn
    _ < 2 ^ F.fractionBits * 2 ^ (2 ^ F.exponentBits - 2) :=
      Nat.mul_lt_mul_of_pos_left (Nat.pow_lt_pow_right (by decide) hm) hpos

/-- Where bits below a place are set, the next number above them with none is one of the format. -/
theorem Encodable.next (h : F.Encodable n) (hm : m < 2 ^ F.exponentBits - 2)
    (hrest : n % 2 ^ m ≠ 0) : F.Encodable ((n / 2 ^ m + 1) * 2 ^ m) := by
  refine encodable_multiple hm ?_
  obtain ⟨k, j, hk, rfl⟩ := h.significand
  have hj : j < m := by
    by_contra hj
    exact hrest (Nat.mod_eq_zero_of_dvd
      (Nat.dvd_mul_left_of_dvd (Nat.pow_dvd_pow 2 (not_lt.mp hj)) k))
  have htwo : 2 ^ 1 ≤ 2 ^ (m - j) := Nat.pow_le_pow_right (by decide) (by omega)
  rw [Nat.pow_succ] at hk
  rw [mul_two_pow_div k hj.le, Nat.succ_le_iff, Nat.div_lt_iff_lt_mul (Nat.two_pow_pos _)]
  exact hk.trans_le (Nat.mul_le_mul_left _ htwo)

/-- The units of a finite pattern are a number of the format. -/
theorem encodable_units {x : Nat} (hx : F.magnitude x < F.infinity) : F.Encodable (F.units x) := by
  have hfraction := F.fraction_lt x
  have hexponent := F.exponent_lt x
  have hne := (F.magnitude_lt_infinity_iff x).mp hx
  refine ⟨?_, (units_lt_binade x).trans_le ?_⟩
  · rw [units_eq, Nat.pow_succ]
    split
    · exact ⟨F.fraction x, 0, by omega, by simp⟩
    · exact ⟨_, _, by omega, rfl⟩
  · exact Nat.mul_le_mul_left _ (Nat.pow_le_pow_right (by decide) (by omega))

/-- The units of a magnitude that is put together from its fields. -/
theorem units_fields {e r : Nat} (hr : r < 2 ^ F.fractionBits)
    (he : e * 2 ^ F.fractionBits + r < F.signWeight) :
    F.units (e * 2 ^ F.fractionBits + r) =
      if e = 0 then r else (2 ^ F.fractionBits + r) * 2 ^ (e - 1) := by
  have hmagnitude : F.magnitude (e * 2 ^ F.fractionBits + r) = _ := Nat.mod_eq_of_lt he
  have hexponent : (e * 2 ^ F.fractionBits + r) / 2 ^ F.fractionBits = e := by
    rw [Nat.mul_comm, Nat.mul_add_div (Nat.two_pow_pos _), Nat.div_eq_of_lt hr, Nat.add_zero]
  have hfraction : (e * 2 ^ F.fractionBits + r) % 2 ^ F.fractionBits = r := by
    rw [Nat.mul_comm, Nat.mul_add_mod, Nat.mod_eq_of_lt hr]
  rw [units, hmagnitude, Nat.shiftRight_eq_div_pow, Nat.one_shiftLeft, Nat.shiftLeft_eq, hexponent,
    hfraction]

/-- The exponent and the fraction of the magnitude that encodes a number of units. -/
theorem exists_fields (hF : 2 ≤ F.exponentBits) {k : Nat}
    (hlt : n < 2 ^ F.fractionBits * 2 ^ (2 ^ F.exponentBits - 2))
    (hk : n = k * 2 ^ (n.log2 - F.fractionBits)) :
    ∃ e r, r < 2 ^ F.fractionBits ∧ e < 2 ^ F.exponentBits - 1 ∧
      (n.log2 - F.fractionBits) * 2 ^ F.fractionBits + k = e * 2 ^ F.fractionBits + r ∧
      (if e = 0 then r else (2 ^ F.fractionBits + r) * 2 ^ (e - 1)) = n := by
  have hfour : 2 ^ 2 ≤ 2 ^ F.exponentBits := Nat.pow_le_pow_right (by decide) hF
  rw [show 2 ^ 2 = 4 from rfl] at hfour
  have hlog : n < 2 ^ (n.log2 + 1) := Nat.lt_log2_self
  generalize hscale : n.log2 - F.fractionBits = scale at hk ⊢
  cases scale with
  | zero =>
    -- Numbers of the lowest two binades are their own magnitudes.
    rw [Nat.pow_zero, Nat.mul_one] at hk
    subst hk
    have hn : n < 2 ^ F.fractionBits * 2 := by
      rw [← Nat.pow_succ]
      exact hlog.trans_le (Nat.pow_le_pow_right (by decide) (by omega))
    by_cases hsubnormal : n < 2 ^ F.fractionBits
    · exact ⟨0, n, hsubnormal, by omega, rfl, rfl⟩
    · refine ⟨1, n - 2 ^ F.fractionBits, by omega, by omega, by omega, ?_⟩
      rw [if_neg Nat.one_ne_zero, Nat.pow_zero]
      omega
  | succ scale =>
    have hsum : n.log2 = F.fractionBits + (scale + 1) := by omega
    have hne : n ≠ 0 := by
      rintro rfl
      rw [Nat.log2_zero] at hsum
      omega
    have hself : 2 ^ n.log2 ≤ n := Nat.log2_self_le hne
    have hpos := Nat.two_pow_pos (scale + 1)
    have hlower : 2 ^ F.fractionBits ≤ k := by
      rw [hsum, Nat.pow_add] at hself
      exact Nat.le_of_mul_le_mul_right (hself.trans_eq hk) hpos
    have hupper : k < 2 ^ F.fractionBits * 2 := by
      rw [hsum, Nat.pow_succ, Nat.pow_add, Nat.mul_right_comm] at hlog
      exact Nat.lt_of_mul_lt_mul_right (hk.symm.trans_lt hlog)
    have hexponent : n.log2 < F.fractionBits + (2 ^ F.exponentBits - 2) := by
      rw [Nat.log2_lt hne]
      exact hlt.trans_eq (Nat.pow_add _ _ _).symm
    refine ⟨scale + 2, k - 2 ^ F.fractionBits, by omega, by omega, ?_, ?_⟩
    · rw [Nat.succ_mul (scale + 1)]
      omega
    · rw [if_neg (by omega), Nat.add_sub_cancel' hlower]
      exact hk.symm

/-- A number of the format is encoded as it is. -/
theorem units_nearest (hF : 2 ≤ F.exponentBits) (h : F.Encodable n) :
    F.nearest n 1 < F.infinity ∧ F.units (F.nearest n 1) = n := by
  obtain ⟨k, hdvd⟩ := h.dvd
  have hk : n = k * 2 ^ (n.log2 - F.fractionBits) := hdvd.trans (Nat.mul_comm _ _)
  obtain ⟨e, r, hr, he, hmagnitude, hunits⟩ := exists_fields hF h.lt hk
  have hbelow : e * 2 ^ F.fractionBits + r < F.infinity := by
    rw [infinity_eq]
    calc
      e * 2 ^ F.fractionBits + r < (e + 1) * 2 ^ F.fractionBits := by
        rw [Nat.succ_mul]
        exact Nat.add_lt_add_left hr _
      _ ≤ (2 ^ F.exponentBits - 1) * 2 ^ F.fractionBits := Nat.mul_le_mul_right _ he
  have hnearest : F.nearest n 1 = e * 2 ^ F.fractionBits + r := by
    rw [nearest_eq, Nat.div_one, Nat.one_mul]
    generalize n.log2 - F.fractionBits = scale at hk hmagnitude
    rw [hk, roundHalfEven_mul k (Nat.two_pow_pos scale), hmagnitude]
    exact Nat.min_eq_left hbelow.le
  rw [hnearest]
  exact ⟨hbelow, (units_fields hr (hbelow.trans F.infinity_lt)).trans hunits⟩

/-- The pattern is that of a number of units with a sign. -/
structure Holds (F : Format) (p : Nat) (negative : Bool) (n : Nat) : Prop where
  negative : F.negative p = negative
  finite : F.magnitude p < F.infinity
  units : F.units p = n

section
variable {p q x k : Nat} {s t : Bool}

theorem Holds.isNaN (h : F.Holds p s n) : F.isNaN p = false :=
  decide_eq_false (Nat.lt_asymm h.finite)

theorem Holds.isInfinite (h : F.Holds p s n) : F.isInfinite p = false :=
  beq_eq_false_iff_ne.mpr h.finite.ne

theorem Holds.signedUnits (h : F.Holds p s n) : F.signedUnits p = if s then -(n : ℤ) else n := by
  rw [Format.signedUnits, h.negative, h.units]

theorem holds_self (hx : F.magnitude x < F.infinity) : F.Holds x (F.negative x) (F.units x) :=
  ⟨rfl, hx, rfl⟩

theorem holds_signed (hF : 2 ≤ F.exponentBits) (s : Bool) (h : F.Encodable n) :
    F.Holds (F.signed s (F.nearest n 1)) s n := by
  obtain ⟨hlt, hunits⟩ := units_nearest hF h
  have hweight := hlt.trans F.infinity_lt
  refine ⟨negative_signed s hweight, ?_, (units_signed s hweight).trans hunits⟩
  rw [magnitude_signed s hweight]
  exact hlt

/-- The magnitude of a number under another sign. -/
theorem Holds.withSign (h : F.Holds p s n) (t : Bool) :
    F.Holds (F.signed t (F.magnitude p)) t n := by
  have hweight := h.finite.trans F.infinity_lt
  have hself : F.magnitude (F.magnitude p) = F.magnitude p := Nat.mod_eq_of_lt hweight
  refine ⟨negative_signed t hweight, ?_, ?_⟩
  · rw [magnitude_signed t hweight]
    exact h.finite
  · rw [units_signed t hweight, ← h.units]
    unfold Format.units
    rw [hself]

theorem Holds.add (hp : F.Holds p s n) (hq : F.Holds q t k) :
    F.add p q = F.encodeSum (s && t) (F.signedUnits p + F.signedUnits q) := by
  simp [Format.add, hp.isNaN, hq.isNaN, hp.isInfinite, hq.isInfinite, hp.negative, hq.negative]

/-- The sum of numbers of one sign has that sign. -/
theorem Holds.add_same (hp : F.Holds p s n) (hq : F.Holds q s k) (hk : 0 < k) :
    F.add p q = F.signed s (F.nearest (n + k) 1) := by
  rw [hp.add hq, hp.signedUnits, hq.signedUnits, encodeSum]
  cases s with
  | true =>
    have hsum : -(n : ℤ) + -(k : ℤ) < 0 := by omega
    have habs : (-(n : ℤ) + -(k : ℤ)).natAbs = n + k := by omega
    simp only [if_true, hsum.ne, hsum, if_false, decide_true, habs]
  | false =>
    have hsum : 0 < (n : ℤ) + k := by omega
    have habs : ((n : ℤ) + k).natAbs = n + k := by omega
    simp only [Bool.false_eq_true, if_false, hsum.ne', hsum.not_gt, decide_false, habs]

theorem nearest_lt (n : Nat) : F.nearest n 1 < F.signWeight :=
  (Nat.min_le_right _ _).trans_lt F.infinity_lt

/-- The absolute difference of numbers of one sign. -/
theorem Holds.abs_sub (hp : F.Holds p s n) (hq : F.Holds q s k) (hle : k ≤ n) :
    F.abs (F.sub p q) = F.nearest (n - k) 1 := by
  have hneg : F.Holds (F.neg q) (!s) k := by
    rw [neg, hq.negative]
    exact hq.withSign (!s)
  have habs : (F.signedUnits p + F.signedUnits (F.neg q)).natAbs = n - k := by
    rw [hp.signedUnits, hneg.signedUnits]
    cases s <;> simp <;> omega
  rw [sub, hq.isNaN, Bool.false_and, if_neg Bool.false_ne_true, hp.add hneg, encodeSum, habs, abs,
    magnitude_signed _ (nearest_lt _)]

theorem Holds.less_iff (hp : F.Holds p false n) (hq : F.Holds q false k) :
    F.less p q = true ↔ n < k := by
  rw [Format.less_iff hp.isNaN hq.isNaN, ← signedUnits_lt_iff, hp.signedUnits, hq.signedUnits]
  exact Nat.cast_lt

theorem Holds.equal_iff (hp : F.Holds p false n) (hq : F.Holds q false k) :
    F.equal p q = true ↔ n = k := by
  rw [Format.equal_iff hp.isNaN hq.isNaN, ← signedUnits_eq_iff, hp.signedUnits, hq.signedUnits]
  exact Nat.cast_inj

theorem units_zero : F.units 0 = 0 := by simp [units, magnitude]

theorem Holds.equal_zero_iff (hp : F.Holds p s n) : F.equal p 0 = true ↔ n = 0 := by
  rw [Format.equal_zero_iff hp.isNaN, ← orderKey_zero, ← signedUnits_eq_iff, hp.signedUnits,
    Format.signedUnits, units_zero]
  cases s <;> simp

theorem Holds.fmod (hp : F.Holds p s n) (hq : F.Holds q t k) (hk : 0 < k) :
    F.fmod p q = F.signed s (F.nearest (n % k) 1) := by
  have hnonzero : F.magnitude q ≠ 0 := by
    intro h
    have hunits := hq.units
    unfold Format.units at hunits
    rw [h] at hunits
    simp at hunits
    omega
  simp [Format.fmod, hp.isNaN, hq.isNaN, hp.isInfinite, hq.isInfinite, hp.negative, hp.units,
    hq.units, hnonzero]

end

end

end Format

end WasmEngine
