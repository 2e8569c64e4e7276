import Mathlib.Algebra.Group.Int.Even
import WasmEngine.Execution.Step
import WasmEngine.Proofs.Numeric.Encoding

/-!
# Rounding to a whole number

Rounding drops the fraction of a pattern and goes one further from zero where what was dropped is more
than a half, or a half beside an odd number. The engine does so in its own arithmetic, of which no step
rounds here: what is dropped, what is left and the next number are all numbers of the format. So the
result is the nearest integer, the even one of two.
-/
namespace WasmEngine
set_option autoImplicit false

/-- `n` is the integer nearest to `q`, the even one of two that are equally near. -/
structure NearestEven (q : ℚ) (n : ℤ) : Prop where
  nearest : ∀ k : ℤ, |q - n| ≤ |q - k|
  even : ∀ k : ℤ, k ≠ n → |q - k| = |q - n| → Even n

section
variable {q : ℚ} {n : ℤ}

/-- An integer no more than a half away has none nearer to the number. -/
theorem nearestEven_of_half (hhalf : |q - n| ≤ 1 / 2) (heven : |q - n| = 1 / 2 → Even n) :
    NearestEven q n := by
  have hdist : ∀ k : ℤ, k ≠ n → 1 ≤ |q - n| + |q - k| := by
    intro k hk
    have hone : (1 : ℤ) ≤ |n - k| := Int.one_le_abs (sub_ne_zero.mpr hk.symm)
    have hcast : (1 : ℚ) ≤ |(n : ℚ) - k| := by exact_mod_cast hone
    calc
      (1 : ℚ) ≤ |(n : ℚ) - k| := hcast
      _ = |(n - q) + (q - k)| := by rw [sub_add_sub_cancel]
      _ ≤ |n - q| + |q - k| := abs_add_le _ _
      _ = |q - n| + |q - k| := by rw [abs_sub_comm]
  refine ⟨fun k => ?_, fun k hk htie => heven ?_⟩
  · by_cases hk : k = n
    · rw [hk]
    · linarith [hdist k hk]
  · linarith [hdist k hk]

theorem NearestEven.neg (h : NearestEven q n) : NearestEven (-q) (-n) := by
  have hmirror : ∀ k : ℤ, |-q - k| = |q - (-k : ℤ)| := by
    intro k
    rw [← abs_neg]
    push_cast
    ring_nf
  refine ⟨fun k => ?_, fun k hk htie => (h.even (-k) ?_ ?_).neg⟩
  · rw [hmirror, hmirror, neg_neg]
    exact h.nearest (-k)
  · exact fun hneg => hk (by rw [← hneg, neg_neg])
  · rw [hmirror, hmirror, neg_neg] at htie
    exact htie

end

/-- Rounding moves a quotient by half a divisor at most, and by that only to an even number. -/
theorem roundHalfEven_dist (num : Nat) {den : Nat} (hden : 0 < den) :
    2 * |(num - roundHalfEven num den * den : ℤ)| ≤ den ∧
      (2 * |(num - roundHalfEven num den * den : ℤ)| = den → roundHalfEven num den % 2 = 0) := by
  have hdiv := Nat.div_add_mod num den
  have hmod := Nat.mod_lt num hden
  unfold roundHalfEven
  dsimp only
  generalize num / den = quotient at hdiv ⊢
  generalize num % den = rest at hdiv hmod ⊢
  split
  · next hup =>
    have hdist : (num - ((quotient + 1 : Nat) * den) : ℤ) = rest - den := by
      rw [← hdiv]
      push_cast
      ring
    rw [hdist, abs_of_nonpos (by omega)]
    omega
  · next hdown =>
    have hdist : (num - (quotient * den) : ℤ) = rest := by
      rw [← hdiv]
      push_cast
      ring
    rw [hdist, abs_of_nonneg (by omega)]
    omega

/-- The rounded quotient is the nearest integer. -/
theorem nearestEven_roundHalfEven (num : Nat) {den : Nat} (hden : 0 < den) :
    NearestEven (num / den) (roundHalfEven num den : ℤ) := by
  have hpos : (0 : ℚ) < den := Nat.cast_pos.mpr hden
  obtain ⟨hle, htie⟩ := roundHalfEven_dist num hden
  have hdist : |(num / den : ℚ) - (roundHalfEven num den : ℤ)| =
      (|(num - roundHalfEven num den * den : ℤ)| : ℤ) / den := by
    rw [Int.cast_abs, ← abs_of_pos hpos, ← abs_div, abs_of_pos hpos]
    push_cast
    rw [sub_div, mul_div_cancel_right₀ _ hpos.ne']
  generalize |(num - roundHalfEven num den * den : ℤ)| = dist at hle htie hdist
  refine nearestEven_of_half ?_ fun hhalf => ?_
  · rw [hdist, div_le_iff₀ hpos]
    have hcast : (2 * dist : ℚ) ≤ den := by exact_mod_cast hle
    linarith
  · rw [hdist, div_eq_iff hpos.ne'] at hhalf
    have hcast : (2 * dist : ℚ) = den := by linarith
    exact (Int.even_coe_nat _).mpr (Nat.even_iff.mpr (htie (by exact_mod_cast hcast)))

/-! ### The number that the engine computes -/

namespace Format

section
variable {F : Format}

/-- What the formats of the engine have in common. A half, one and two are numbers of such a format,
and one is an even number of units. -/
structure Standard (F : Format) : Prop where
  two_le : 2 ≤ F.exponentBits
  fraction_pos : 0 < F.fractionBits
  unitShift_lt : F.unitShift < 2 ^ F.exponentBits - 2

namespace Standard

section
variable (h : F.Standard)
include h

theorem one_eq_double : F.one = 2 * 2 ^ (F.unitShift - 1) := by
  have hpow : 2 ^ 1 ≤ 2 ^ (F.exponentBits - 1) :=
    Nat.pow_le_pow_right (by decide) (Nat.le_sub_one_of_lt h.two_le)
  have hfraction := h.fraction_pos
  have hshift : F.unitShift = F.unitShift - 1 + 1 := by
    rw [unitShift_eq]
    omega
  rw [one_eq, hshift, Nat.pow_succ, Nat.mul_comm]
  rfl

theorem holds_half : F.Holds F.half false (F.one / 2) := by
  have hlt := h.unitShift_lt
  refine holds_signed h.two_le false ?_
  rw [h.one_eq_double, Nat.mul_div_cancel_left _ Nat.two_pos, ← Nat.one_mul (2 ^ (F.unitShift - 1))]
  exact encodable_multiple (by omega) Nat.one_le_two_pow

theorem holds_one : F.Holds (F.nearest F.one 1) false F.one := by
  refine holds_signed h.two_le false ?_
  rw [one_eq, ← Nat.one_mul (2 ^ F.unitShift)]
  exact encodable_multiple h.unitShift_lt Nat.one_le_two_pow

theorem holds_two : F.Holds (F.nearest (2 * F.one) 1) false (2 * F.one) := by
  have htwo : 2 ^ 1 ≤ 2 ^ F.fractionBits := Nat.pow_le_pow_right (by decide) h.fraction_pos
  refine holds_signed h.two_le false ?_
  rw [one_eq]
  exact encodable_multiple h.unitShift_lt htwo

end

end Standard

theorem toWhole_eq {x : Nat} (hx : F.magnitude x < F.infinity) : F.toWhole .towardZero x =
    F.signed (F.negative x) (F.nearest (F.units x / F.one * F.one) 1) := by
  have hself := holds_self hx
  simp [toWhole, hself.isNaN, hself.isInfinite, Rounding.apply]

/-- Rounding computes the pattern of the nearest whole number: what is left of the operand, what was
dropped, the rest that tells odd from even and the next number are exact. -/
theorem Standard.toNearest_eq (h : F.Standard) {x : Nat} (hx : F.magnitude x < F.infinity) :
    F.toNearest x = F.signed (F.negative x)
      (F.nearest (roundHalfEven (F.units x) F.one * F.one) 1) := by
  have hself := holds_self hx
  have hunits := encodable_units hx
  have hfloor : F.Encodable (F.units x / F.one * F.one) := by
    rw [one_eq]
    exact hunits.floor _
  have hwhole : F.Holds (F.toWhole .towardZero x) (F.negative x) (F.units x / F.one * F.one) := by
    rw [toWhole_eq hx]
    exact holds_signed h.two_le _ hfloor
  have hdiff : F.Holds (F.abs (F.sub x (F.toWhole .towardZero x))) false (F.units x % F.one) := by
    rw [hself.abs_sub hwhole (Nat.div_mul_le_self _ _), ← Nat.mod_eq_sub_div_mul]
    refine holds_signed h.two_le false ?_
    rw [one_eq]
    exact hunits.mod _
  have hparity : F.Holds (F.fmod (F.toWhole .towardZero x) (F.nearest (2 * F.one) 1)) (F.negative x)
      (F.units x / F.one * F.one % (2 * F.one)) := by
    rw [hwhole.fmod h.holds_two (Nat.mul_pos Nat.two_pos F.one_pos)]
    refine holds_signed h.two_le _ ?_
    rw [one_eq, Nat.mul_comm 2, ← Nat.pow_succ, ← one_eq]
    exact hfloor.mod _
  have heven : F.units x / F.one * F.one % (2 * F.one) = 0 ↔ F.units x / F.one % 2 = 0 := by
    rw [Nat.mul_mod_mul_right, Nat.mul_eq_zero, or_iff_left F.one_pos.ne']
  have hnext := hwhole.add_same (h.holds_one.withSign (F.negative x)) F.one_pos
  have hdouble := h.one_eq_double
  have hhalf := h.holds_half
  unfold toNearest roundHalfEven
  simp only [Bool.or_eq_true, Bool.and_eq_true, Bool.not_eq_true', Bool.eq_false_iff, ne_eq,
    hhalf.less_iff hdiff, hdiff.equal_iff hhalf, hparity.equal_zero_iff, heven]
  by_cases hup : F.one < 2 * (F.units x % F.one) ∨
      (F.one = 2 * (F.units x % F.one) ∧ F.units x / F.one % 2 = 1)
  · rw [if_pos hup, if_pos (by omega), copysign, hnext, Nat.succ_mul]
  · rw [if_neg hup, if_neg (by omega), toWhole_eq hx]

theorem Standard.rounded_eq (h : F.Standard) {x : Nat} (hx : F.magnitude x < F.infinity) :
    F.roundWith F.toNearest x = F.signed (F.negative x)
      (F.nearest (roundHalfEven (F.units x) F.one * F.one) 1) := by
  rw [roundWith, (holds_self hx).isNaN, if_neg Bool.false_ne_true, h.toNearest_eq hx, copysign,
    magnitude_signed _ (nearest_lt _)]

/-- The nearest whole number is a number of the format. -/
theorem Standard.encodable_nearest (h : F.Standard) {x : Nat} (hx : F.magnitude x < F.infinity) :
    F.Encodable (roundHalfEven (F.units x) F.one * F.one) := by
  have hunits := encodable_units hx
  have hpos := F.one_pos
  unfold roundHalfEven
  dsimp only
  split
  · next hup =>
    have hrest : F.units x % F.one ≠ 0 := by omega
    rw [one_eq] at hrest ⊢
    exact hunits.next h.unitShift_lt hrest
  · rw [one_eq]
    exact hunits.floor _

/-- What rounding makes of a number: a pattern of the same sign and a whole number. -/
theorem Standard.holds_rounded (h : F.Standard) {x : Nat} (hx : F.magnitude x < F.infinity) :
    F.Holds (F.roundWith F.toNearest x) (F.negative x)
      (roundHalfEven (F.units x) F.one * F.one) := by
  rw [h.rounded_eq hx]
  exact holds_signed h.two_le _ (h.encodable_nearest hx)

/-- A rounded number is left as it is. -/
theorem Standard.rounded_rounded (h : F.Standard) {x : Nat} (hx : F.magnitude x < F.infinity) :
    F.roundWith F.toNearest (F.roundWith F.toNearest x) = F.roundWith F.toNearest x := by
  have hrounded := h.holds_rounded hx
  rw [h.rounded_eq hrounded.finite, hrounded.negative, hrounded.units,
    roundHalfEven_mul _ F.one_pos, h.rounded_eq hx]

end

end Format

/-! ### Every pattern -/

theorem FloatType.standard (f : FloatType) : f.format.Standard := by
  cases f <;> constructor <;> decide

namespace Format

section
variable {f : FloatType} {x : Nat}

theorem rounded_nan (h : f.format.datum x = .nan) (fn : Nat → Nat) :
    f.format.roundWith fn x = f.format.canonicalNaN :=
  if_pos ((datum_eq_nan_iff f.two_le_exponentBits).mp h)

/-- What is dropped of an infinity is not a number, which compares with nothing. -/
theorem rounded_infinite {b : Bool} (h : f.format.datum x = .infinite b)
    (hx : x < 2 ^ f.format.width) : f.format.roundWith f.format.toNearest x = x := by
  have hmagnitude := ((datum_eq_infinite_iff f.two_le_exponentBits).mp h).1
  have hnan : f.format.isNaN x = false := by simp [isNaN, hmagnitude]
  have hinfinite : f.format.isInfinite x = true := by simp [isInfinite, hmagnitude]
  have hwhole : f.format.toWhole .towardZero x = x := by simp [toWhole, hnan, hinfinite]
  have hdiff : f.format.sub x x = f.format.invalidNaN := by
    have hweight := f.format.infinity_lt
    have hneg : f.format.magnitude (f.format.neg x) = f.format.infinity := by
      rw [neg, magnitude_signed _ (by omega), hmagnitude]
    have hsign : f.format.negative (f.format.neg x) = !f.format.negative x :=
      negative_signed _ (by omega)
    simp [sub, add, isNaN, isInfinite, hmagnitude, hneg, hsign]
  have hinvalid : f.format.isNaN (f.format.abs f.format.invalidNaN) = true := by
    cases f <;> decide +kernel
  rw [roundWith, hnan, if_neg Bool.false_ne_true, copysign, toNearest]
  simp only [hwhole, hdiff, less, equal, hinvalid, Bool.not_true, Bool.and_false, Bool.false_and,
    Bool.or_self, Bool.false_eq_true, if_false]
  exact signed_eq_self hx

theorem rounded_finite {v : ℚ} (h : f.format.datum x = .finite v) :
    f.format.Holds (f.format.roundWith f.format.toNearest x) (f.format.negative x)
      (roundHalfEven (f.format.units x) f.format.one * f.format.one) :=
  f.standard.holds_rounded ((datum_eq_finite_iff f.two_le_exponentBits).mp h).1

/-- The rounded number is the nearest integer to the one that the pattern stands for. -/
theorem datum_rounded {v : ℚ} (h : f.format.datum x = .finite v) :
    ∃ n : ℤ, f.format.datum (f.format.roundWith f.format.toNearest x) = .finite n ∧
      NearestEven v n := by
  obtain ⟨-, rfl⟩ := (datum_eq_finite_iff f.two_le_exponentBits).mp h
  have hrounded := rounded_finite h
  have hone : (f.format.one : ℚ) ≠ 0 := Nat.cast_ne_zero.mpr f.format.one_pos.ne'
  have hnearest := nearestEven_roundHalfEven (f.format.units x) f.format.one_pos
  refine ⟨if f.format.negative x then -(roundHalfEven (f.format.units x) f.format.one : ℤ)
    else roundHalfEven (f.format.units x) f.format.one,
    (datum_eq_finite_iff f.two_le_exponentBits).mpr ⟨hrounded.finite, ?_⟩, ?_⟩
  · rw [hrounded.signedUnits]
    split <;> push_cast
    · rw [← neg_mul, mul_div_cancel_right₀ _ hone]
    · exact mul_div_cancel_right₀ _ hone
  · rw [signedUnits]
    split
    · push_cast
      rw [neg_div]
      exact_mod_cast hnearest.neg
    · exact hnearest

theorem rounded_lt (hx : x < 2 ^ f.format.width) :
    f.format.roundWith f.format.toNearest x < 2 ^ f.format.width := by
  cases hdatum : f.format.datum x with
  | nan =>
    rw [rounded_nan hdatum]
    exact f.canonicalNaN_lt
  | infinite b =>
    rw [rounded_infinite hdatum hx]
    exact hx
  | finite v =>
    rw [f.standard.rounded_eq ((datum_eq_finite_iff f.two_le_exponentBits).mp hdatum).1]
    exact signed_lt _ (nearest_lt _)

/-- What has been rounded once is left as it is. -/
theorem rounded_idem (hx : x < 2 ^ f.format.width) :
    f.format.roundWith f.format.toNearest (f.format.roundWith f.format.toNearest x) =
      f.format.roundWith f.format.toNearest x := by
  cases hdatum : f.format.datum x with
  | nan => rw [rounded_nan hdatum, rounded_nan f.datum_canonicalNaN]
  | infinite b => rw [rounded_infinite hdatum hx, rounded_infinite hdatum hx]
  | finite v =>
    exact f.standard.rounded_rounded ((datum_eq_finite_iff f.two_le_exponentBits).mp hdatum).1

end

end Format

/-- Rounding to a whole number is exact on every pattern. The instruction leaves the pattern of the
nearest integer, the even one of two, with the sign bit of its operand, also where the integer is
zero; an infinity as it is; and for a NaN the positive quiet one without other payload. Wherever the
result is an operand again, it is left as it is. -/
theorem rounding_exact (obs : Observers) (i : InstanceId) (code : Code) (f : FloatType) (next : Nat)
    (frame : Frame) (m : Machine) :
    let F := f.format
    let outcome := step obs i code (.unary (.float f .nearest))
    let x := frame.peek.bitsOf f.valType
    ∃ c, outcome next frame m = .goto next (frame.setTop c) m ∧
      let y := c.bitsOf f.valType
      (∀ v, F.datum x = .finite v → ∃ n : ℤ, F.datum y = .finite n ∧ NearestEven v n ∧
        F.negative y = F.negative x) ∧
      (∀ b, F.datum x = .infinite b → y = x) ∧
      (F.datum x = .nan → y = F.canonicalNaN) ∧
      ∀ (next' : Nat) (frame' : Frame) (m' : Machine), frame'.peek.bitsOf f.valType = y →
        outcome next' frame' m' = .goto next' (frame'.setTop c) m' := by
  intro F outcome x
  have houtcome (next : Nat) (frame : Frame) (m : Machine) : outcome next frame m =
    .goto next (frame.setTop
      (BitVec.ofNat 64 (F.roundWith F.toNearest (frame.peek.bitsOf f.valType)))) m := rfl
  have hx : x < 2 ^ F.width := Cell.bitsOf_lt f frame.peek
  refine ⟨BitVec.ofNat 64 (F.roundWith F.toNearest x), houtcome next frame m, ?_⟩
  intro y
  have hy : y = F.roundWith F.toNearest x := Cell.bitsOf_ofNat f (Format.rounded_lt hx)
  refine ⟨fun v hv => ?_, fun b hb => ?_, fun hnan => ?_, fun next' frame' m' hy' => ?_⟩
  · obtain ⟨n, hn, hnearest⟩ := Format.datum_rounded hv
    rw [hy]
    exact ⟨n, hn, hnearest, (Format.rounded_finite hv).negative⟩
  · exact hy.trans (Format.rounded_infinite hb hx)
  · exact hy.trans (Format.rounded_nan hnan F.toNearest)
  · rw [houtcome, hy', hy, Format.rounded_idem hx]

/-- A half between two and three goes to two, and minus a half to the negative zero, which stays what
it is. -/
theorem halves_rounded :
    let F := Format.binary32
    let frame (x : Cell) : Frame := { slots := #[0, x], localCount := 0, top := 1 }
    let outcome (x : Cell) := step {} 0 {} (.unary (.float .f32 .nearest)) 1 (frame x) {}
    F.datum 0x40200000 = .finite (5 / 2) ∧ F.datum 0xbf000000 = .finite (-1 / 2) ∧
      (∃ c n, outcome 0x40200000 = .goto 1 ((frame 0x40200000).setTop c) {} ∧
        F.datum (c.bitsOf .f32) = .finite (n : ℤ) ∧ NearestEven (5 / 2) n) ∧
      ∃ c n, outcome 0xbf000000 = .goto 1 ((frame 0xbf000000).setTop c) {} ∧
        F.datum (c.bitsOf .f32) = .finite (n : ℤ) ∧ NearestEven (-1 / 2) n ∧
        F.negative (c.bitsOf .f32) = true ∧ outcome c = .goto 1 ((frame c).setTop c) {} := by
  intro F frame outcome
  have hhalf : F.datum 0x40200000 = .finite (5 / 2) := by decide +kernel
  have hminus : F.datum 0xbf000000 = .finite (-1 / 2) := by decide +kernel
  obtain ⟨c, hc, hfinite, -⟩ := rounding_exact {} 0 {} .f32 1 (frame 0x40200000) {}
  obtain ⟨n, hn, hnearest, -⟩ := hfinite _ hhalf
  obtain ⟨d, hd, hdfinite, -, -, hagain⟩ := rounding_exact {} 0 {} .f32 1 (frame 0xbf000000) {}
  obtain ⟨k, hk, hdnearest, hsign⟩ := hdfinite _ hminus
  exact ⟨hhalf, hminus, ⟨c, n, hc, hn, hnearest⟩, d, k, hd, hk, hdnearest,
    hsign.trans (by decide +kernel), hagain 1 (frame d) {} rfl⟩

end WasmEngine
