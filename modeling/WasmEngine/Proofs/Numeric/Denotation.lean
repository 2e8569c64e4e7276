import Mathlib.Data.Rat.Floor
import Mathlib.Order.Monotone.Basic
import Mathlib.Tactic.FieldSimp
import Mathlib.Tactic.Ring
import WasmEngine.Cell
import WasmEngine.Numeric.Arithmetic

/-!
# What a bit pattern denotes

The reading of the sign, exponent and fraction fields of a binary interchange format as an exact
rational number, an infinity or no number. The arithmetic of the engine counts units and compares
magnitudes instead; both are tied to the reading here, so that what is computed on patterns can be
stated of the numbers they stand for.
-/
namespace WasmEngine
set_option autoImplicit false

/-- What a bit pattern stands for. -/
inductive Datum where
  | nan
  | infinite (negative : Bool)
  | finite (value : ℚ)
  deriving DecidableEq

namespace Format

section
variable (F : Format) (x : Nat)

def exponent : Nat := x / 2 ^ F.fractionBits % 2 ^ F.exponentBits

def fraction : Nat := x % 2 ^ F.fractionBits

/-- The exponent field of the numbers from one up to two. -/
def bias : Nat := 2 ^ (F.exponentBits - 1) - 1

/-- What the fields of a pattern stand for: under the greatest exponent field an infinity or a NaN,
under the least one a number with no hidden bit. -/
def datum : Datum :=
  let sign : ℚ := if F.negative x then -1 else 1
  let tail : ℚ := F.fraction x / 2 ^ F.fractionBits
  if F.exponent x = 2 ^ F.exponentBits - 1 then
    if F.fraction x = 0 then .infinite (F.negative x) else .nan
  else if F.exponent x = 0 then .finite (sign * tail * 2 ^ (1 - F.bias : ℤ))
  else .finite (sign * (1 + tail) * 2 ^ (F.exponent x - F.bias : ℤ))

/-! ### The weights as powers of two -/

theorem signWeight_eq : F.signWeight = 2 ^ F.exponentBits * 2 ^ F.fractionBits := by
  rw [signWeight, Nat.one_shiftLeft, Nat.pow_add]

theorem signWeight_pos : 0 < F.signWeight := by
  rw [signWeight_eq]
  exact Nat.mul_pos (Nat.two_pow_pos _) (Nat.two_pow_pos _)

theorem infinity_eq : F.infinity = (2 ^ F.exponentBits - 1) * 2 ^ F.fractionBits := by
  rw [infinity, Nat.one_shiftLeft, Nat.shiftLeft_eq]

theorem unitShift_eq : F.unitShift = 2 ^ (F.exponentBits - 1) + F.fractionBits - 2 := by
  rw [unitShift, Nat.one_shiftLeft]

theorem one_eq : F.one = 2 ^ F.unitShift := Nat.one_shiftLeft _

theorem nearest_eq (num den : Nat) :
    let scale := (num / den).log2 - F.fractionBits
    F.nearest num den =
      Nat.min (scale * 2 ^ F.fractionBits + roundHalfEven num (den * 2 ^ scale)) F.infinity := by
  simp only [nearest, Nat.shiftLeft_eq]

/-! ### Magnitudes by their fields -/

theorem fraction_lt : F.fraction x < 2 ^ F.fractionBits := Nat.mod_lt _ (Nat.two_pow_pos _)

theorem exponent_lt : F.exponent x < 2 ^ F.exponentBits := Nat.mod_lt _ (Nat.two_pow_pos _)

theorem magnitude_eq : F.magnitude x = F.exponent x * 2 ^ F.fractionBits + F.fraction x := by
  rw [magnitude, signWeight_eq, Nat.mul_comm, Nat.mod_mul, exponent, fraction, Nat.add_comm,
    Nat.mul_comm]

theorem magnitude_div : F.magnitude x / 2 ^ F.fractionBits = F.exponent x := by
  rw [magnitude_eq, Nat.mul_comm, Nat.mul_add_div (Nat.two_pow_pos _),
    Nat.div_eq_of_lt (F.fraction_lt x), Nat.add_zero]

theorem magnitude_mod : F.magnitude x % 2 ^ F.fractionBits = F.fraction x := by
  rw [magnitude_eq, Nat.mul_comm, Nat.mul_add_mod, Nat.mod_eq_of_lt (F.fraction_lt x)]

/-- A magnitude lies below the infinity exactly if its exponent field is not the greatest one. -/
theorem magnitude_lt_infinity_iff :
    F.magnitude x < F.infinity ↔ F.exponent x ≠ 2 ^ F.exponentBits - 1 := by
  have hexponent := F.exponent_lt x
  rw [infinity_eq, ← Nat.div_lt_iff_lt_mul (Nat.two_pow_pos _), magnitude_div]
  omega

/-- The units of a finite pattern, by its fields. -/
theorem units_eq : F.units x = if F.exponent x = 0 then F.fraction x
    else (2 ^ F.fractionBits + F.fraction x) * 2 ^ (F.exponent x - 1) := by
  rw [units, Nat.shiftRight_eq_div_pow, Nat.one_shiftLeft, Nat.shiftLeft_eq, magnitude_div,
    magnitude_mod]

end

section
variable {F : Format}

theorem one_pos (F : Format) : 0 < F.one := by
  rw [one_eq]
  exact Nat.two_pow_pos _

/-- One in units, by the bias. -/
theorem one_eq_bias (hF : 2 ≤ F.exponentBits) :
    (F.one : ℚ) = 2 ^ F.fractionBits * 2 ^ (F.bias - 1 : ℤ) := by
  have hpow : 2 ^ 1 ≤ 2 ^ (F.exponentBits - 1) :=
    Nat.pow_le_pow_right (by decide) (by omega)
  have hbias : 1 ≤ F.bias := by
    rw [bias]
    omega
  have hshift : F.unitShift = F.fractionBits + (F.bias - 1) := by
    rw [unitShift_eq, bias]
    omega
  have hone : F.one = 2 ^ F.fractionBits * 2 ^ (F.bias - 1) := by
    rw [one_eq, hshift, Nat.pow_add]
  rw [hone, ← Nat.cast_pred hbias, zpow_natCast]
  push_cast
  rfl

/-- The value of the fields is the number of units that the engine counts. -/
theorem units_div_one (hF : 2 ≤ F.exponentBits) (x : Nat) :
    (F.units x : ℚ) / F.one =
      if F.exponent x = 0 then (F.fraction x / 2 ^ F.fractionBits : ℚ) * 2 ^ (1 - F.bias : ℤ)
      else (1 + F.fraction x / 2 ^ F.fractionBits : ℚ) * 2 ^ (F.exponent x - F.bias : ℤ) := by
  have hscale (e : ℤ) : (2 : ℚ) ^ (e - F.bias) = 2 ^ (e - 1) / 2 ^ (F.bias - 1 : ℤ) := by
    rw [← zpow_sub₀ two_ne_zero, sub_sub_sub_cancel_right]
  rw [units_eq, one_eq_bias hF, hscale, hscale]
  split
  · rw [sub_self, zpow_zero]
    field_simp
  · next he =>
    rw [← Nat.cast_pred (Nat.pos_of_ne_zero he), zpow_natCast]
    push_cast
    field_simp

/-- The reading of a pattern, by the tests and the count of units of the engine. -/
theorem datum_eq (hF : 2 ≤ F.exponentBits) (x : Nat) :
    F.datum x = if F.isNaN x then .nan else if F.isInfinite x then .infinite (F.negative x)
      else .finite (F.signedUnits x / F.one) := by
  -- The tests compare magnitudes with the infinity, whose exponent field is the greatest one.
  by_cases htop : F.exponent x = 2 ^ F.exponentBits - 1
  · have hmagnitude : F.magnitude x = F.infinity + F.fraction x := by
      rw [magnitude_eq, htop, infinity_eq]
    by_cases hfraction : F.fraction x = 0
    · simp [datum, isNaN, isInfinite, htop, hmagnitude, hfraction]
    · simp [datum, isNaN, htop, hmagnitude, hfraction, Nat.pos_of_ne_zero hfraction]
  · have hmagnitude := (F.magnitude_lt_infinity_iff x).mpr htop
    have hvalue := units_div_one hF x
    have hsigned : (F.signedUnits x / F.one : ℚ) =
        (if F.negative x then -1 else 1) * (F.units x / F.one) := by
      rw [signedUnits]
      split <;> simp [neg_div]
    rw [if_neg (by simpa [isNaN] using Nat.le_of_lt hmagnitude),
      if_neg (by simpa [isInfinite] using Nat.ne_of_lt hmagnitude), hsigned, hvalue, datum,
      if_neg htop]
    split <;> simp only [mul_assoc]

theorem datum_eq_nan_iff (hF : 2 ≤ F.exponentBits) {x : Nat} :
    F.datum x = .nan ↔ F.isNaN x = true := by
  rw [datum_eq hF]
  split
  · next h => exact iff_of_true rfl h
  · next h =>
    refine iff_of_false ?_ h
    split <;> simp

theorem datum_eq_infinite_iff (hF : 2 ≤ F.exponentBits) {x : Nat} {b : Bool} :
    F.datum x = .infinite b ↔ F.magnitude x = F.infinity ∧ F.negative x = b := by
  rw [datum_eq hF, isNaN, isInfinite]
  split
  · next h => exact iff_of_false nofun fun hx => absurd hx.1 (of_decide_eq_true h).ne'
  · split
    · next h => simp [beq_iff_eq.mp h]
    · next h => exact iff_of_false nofun fun hx => h (beq_iff_eq.mpr hx.1)

theorem datum_eq_finite_iff (hF : 2 ≤ F.exponentBits) {x : Nat} {v : ℚ} :
    F.datum x = .finite v ↔ F.magnitude x < F.infinity ∧ F.signedUnits x / F.one = v := by
  rw [datum_eq hF, isNaN, isInfinite]
  split
  · next h => exact iff_of_false nofun fun hx => absurd hx.1 (of_decide_eq_true h).not_gt
  · next hle =>
    split
    · next h => exact iff_of_false nofun fun hx => hx.1.ne (beq_iff_eq.mp h)
    · next hne =>
      have hlt : F.magnitude x < F.infinity :=
        lt_of_le_of_ne (not_lt.mp (by simpa using hle)) (by simpa using hne)
      simp [hlt]

/-! ### The order of the values -/

/-- The units of a pattern stay below the end of its binade. -/
theorem units_lt_binade (x : Nat) :
    F.units x < 2 ^ F.fractionBits * 2 ^ F.exponent x := by
  have hfraction := F.fraction_lt x
  rw [units_eq]
  split
  · next he =>
    rw [he, Nat.pow_zero, Nat.mul_one]
    exact hfraction
  · next he =>
    obtain ⟨e, he⟩ := Nat.exists_eq_succ_of_ne_zero he
    rw [he, Nat.succ_sub_one, Nat.succ_eq_add_one, Nat.pow_succ, Nat.mul_comm (2 ^ e),
      ← Nat.mul_assoc]
    exact Nat.mul_lt_mul_of_pos_right (by omega) (Nat.two_pow_pos e)

theorem binade_le_units {x : Nat} (h : F.exponent x ≠ 0) :
    2 ^ F.fractionBits * 2 ^ (F.exponent x - 1) ≤ F.units x := by
  rw [units_eq, if_neg h]
  exact Nat.mul_le_mul_right _ (Nat.le_add_right _ _)

/-- A greater magnitude has more units, in the same binade or in a later one. -/
theorem units_lt_units {x y : Nat} (h : F.magnitude x < F.magnitude y) : F.units x < F.units y := by
  have hle : F.exponent x ≤ F.exponent y := by
    rw [← magnitude_div, ← magnitude_div]
    exact Nat.div_le_div_right (Nat.le_of_lt h)
  rcases Nat.lt_or_eq_of_le hle with hlt | heq
  · calc
      F.units x < 2 ^ F.fractionBits * 2 ^ F.exponent x := units_lt_binade x
      _ ≤ 2 ^ F.fractionBits * 2 ^ (F.exponent y - 1) :=
        Nat.mul_le_mul_left _ (Nat.pow_le_pow_right (by decide) (by omega))
      _ ≤ F.units y := binade_le_units (by omega)
  · have hfraction : F.fraction x < F.fraction y := by
      rw [magnitude_eq, magnitude_eq, heq] at h
      omega
    rw [units_eq, units_eq, heq]
    split
    · exact hfraction
    · exact Nat.mul_lt_mul_of_pos_right (by omega) (Nat.two_pow_pos _)

theorem units_lt_units_iff {x y : Nat} : F.units x < F.units y ↔ F.magnitude x < F.magnitude y := by
  refine ⟨fun h => ?_, units_lt_units⟩
  rcases Nat.lt_trichotomy (F.magnitude x) (F.magnitude y) with hlt | heq | hgt
  · exact hlt
  · rw [units, units, heq] at h
    exact absurd h (Nat.lt_irrefl _)
  · exact absurd h (Nat.lt_asymm (units_lt_units hgt))

theorem natAbs_orderKey (x : Nat) : (F.orderKey x).natAbs = F.magnitude x := by
  rw [orderKey]
  split <;> simp

/-- Comparing the keys of two patterns is comparing the units that they count, signs included. -/
theorem signedUnits_lt_iff {x y : Nat} :
    F.signedUnits x < F.signedUnits y ↔ F.orderKey x < F.orderKey y := by
  have hxy : F.units x < F.units y ↔ F.magnitude x < F.magnitude y := units_lt_units_iff
  have hyx : F.units y < F.units x ↔ F.magnitude y < F.magnitude x := units_lt_units_iff
  -- Patterns of different signs compare by whether either of them is a zero.
  have hzero : F.units 0 = 0 := by simp [units, magnitude]
  have hx : F.units 0 < F.units x ↔ F.magnitude 0 < F.magnitude x := units_lt_units_iff
  have hy : F.units 0 < F.units y ↔ F.magnitude 0 < F.magnitude y := units_lt_units_iff
  rw [hzero, show F.magnitude 0 = 0 from Nat.zero_mod _] at hx hy
  unfold signedUnits orderKey
  cases F.negative x <;> cases F.negative y <;> simp only [if_true, if_false, Bool.false_eq_true] <;>
    omega

theorem signedUnits_eq_iff {x y : Nat} :
    F.signedUnits x = F.signedUnits y ↔ F.orderKey x = F.orderKey y := by
  have hlt := signedUnits_lt_iff (F := F) (x := x) (y := y)
  have hgt := signedUnits_lt_iff (F := F) (x := y) (y := x)
  omega

section
variable {x y : Nat}

theorem isNaN_zero : F.isNaN 0 = false := by simp [isNaN, magnitude]

theorem orderKey_zero : F.orderKey 0 = 0 := by simp [orderKey, negative, magnitude]

theorem less_iff (hx : F.isNaN x = false) (hy : F.isNaN y = false) :
    F.less x y = true ↔ F.orderKey x < F.orderKey y := by
  simp [less, hx, hy]

theorem equal_iff (hx : F.isNaN x = false) (hy : F.isNaN y = false) :
    F.equal x y = true ↔ F.orderKey x = F.orderKey y := by
  simp [equal, hx, hy]

theorem equal_zero_iff (hx : F.isNaN x = false) : F.equal x 0 = true ↔ F.orderKey x = 0 := by
  rw [equal_iff hx isNaN_zero, orderKey_zero]

end

/-! ### Patterns by their sign and magnitude -/

theorem two_pow_width (F : Format) : 2 ^ F.width = 2 * F.signWeight := by
  rw [width, Nat.pow_succ, Nat.mul_comm, Nat.pow_add, signWeight_eq]

theorem infinity_lt (F : Format) : F.infinity < F.signWeight := by
  rw [signWeight_eq, infinity_eq]
  exact Nat.mul_lt_mul_of_pos_right (Nat.sub_lt (Nat.two_pow_pos _) Nat.one_pos) (Nat.two_pow_pos _)

section
variable {x n : Nat} (negative : Bool)

theorem signed_lt (h : n < F.signWeight) : F.signed negative n < 2 ^ F.width := by
  rw [signed, two_pow_width]
  split <;> omega

theorem magnitude_signed (h : n < F.signWeight) : F.magnitude (F.signed negative n) = n := by
  rw [magnitude, signed]
  split
  · rw [Nat.add_mod_left, Nat.mod_eq_of_lt h]
  · exact Nat.mod_eq_of_lt h

theorem units_signed (h : n < F.signWeight) : F.units (F.signed negative n) = F.units n := by
  have hself : F.magnitude n = n := Nat.mod_eq_of_lt h
  unfold units
  rw [magnitude_signed negative h, hself]

theorem negative_signed (h : n < F.signWeight) : F.negative (F.signed negative n) = negative := by
  have hweight := F.signWeight_pos
  rw [Format.negative, signed]
  cases negative with
  | true => rw [if_pos rfl, Nat.add_div_left _ hweight, Nat.div_eq_of_lt h]; rfl
  | false => rw [if_neg Bool.false_ne_true, Nat.div_eq_of_lt h]; rfl

/-- A pattern is made of its sign and its magnitude. -/
theorem signed_eq_self (h : x < 2 ^ F.width) : F.signed (F.negative x) (F.magnitude x) = x := by
  have hweight := F.signWeight_pos
  have hdiv := Nat.div_add_mod x F.signWeight
  have hsign : x / F.signWeight < 2 := by
    rw [Nat.div_lt_iff_lt_mul hweight, ← two_pow_width]
    exact h
  rw [signed, Format.negative, magnitude]
  generalize x / F.signWeight = sign at hdiv hsign ⊢
  obtain rfl | rfl : sign = 0 ∨ sign = 1 := by omega
  · simpa using hdiv
  · simpa using hdiv

end

end

end Format

section
variable (f : FloatType)

theorem FloatType.two_le_exponentBits : 2 ≤ f.format.exponentBits := by cases f <;> decide

theorem FloatType.canonicalNaN_lt : f.format.canonicalNaN < 2 ^ f.format.width := by
  cases f <;> decide

theorem FloatType.datum_canonicalNaN : f.format.datum f.format.canonicalNaN = .nan := by
  cases f <;> decide +kernel

theorem Cell.bitsOf_lt (c : Cell) : c.bitsOf f.valType < 2 ^ f.format.width := by
  cases f with
  | f32 => exact c.low.isLt
  | f64 => exact c.isLt

/-- A pattern is read back from the cell that holds it. -/
theorem Cell.bitsOf_ofNat {n : Nat} (h : n < 2 ^ f.format.width) :
    bitsOf f.valType (BitVec.ofNat 64 n) = n := by
  cases f with
  | f32 =>
    have hlt : n < 2 ^ 32 := h
    have hlow : (BitVec.ofNat 64 n).toNat = n := Nat.mod_eq_of_lt (by omega)
    show (BitVec.setWidth 32 (BitVec.ofNat 64 n)).toNat = n
    rw [BitVec.toNat_setWidth, hlow, Nat.mod_eq_of_lt hlt]
  | f64 => exact Nat.mod_eq_of_lt h

end

end WasmEngine
