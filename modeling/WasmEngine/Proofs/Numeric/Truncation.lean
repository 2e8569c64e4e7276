import WasmEngine.Proofs.Execution.Accesses
import WasmEngine.Proofs.Numeric.Denotation

/-!
# Truncation to integers

A truncation admits its operand by comparing it with two bounds. The lower one ought to be one below
the least integer of the type; where the format lacks that number, the nearest one below it stands
in its place. No pattern lies between the two, so the comparison is exact: an operand passes exactly
if the number it denotes, rounded toward zero, is an integer of the destination type, and that
integer is the result.
-/
namespace WasmEngine
set_option autoImplicit false

/-- The number rounded toward zero, if the pattern denotes one. -/
def Datum.truncated? : Datum → Option ℤ
  | .finite q => some (if q < 0 then ⌈q⌉ else ⌊q⌋)
  | .infinite _ => none
  | .nan => none

namespace IntType

/-- The least integer of the type. -/
def least (t : IntType) : Signedness → ℤ
  | .unsigned => 0
  | .signed => -2 ^ (t.bits - 1)

/-- The greatest integer of the type. -/
def greatest (t : IntType) : Signedness → ℤ
  | .unsigned => 2 ^ t.bits - 1
  | .signed => 2 ^ (t.bits - 1) - 1

/-- The number is one that words of the type stand for under the given reading. -/
structure Contains (t : IntType) (s : Signedness) (n : ℤ) : Prop where
  least_le : t.least s ≤ n
  le_greatest : n ≤ t.greatest s

end IntType

section
variable {a b bound : ℤ}

theorem tdiv_le_iff (hb : 0 < b) (hbound : 0 ≤ bound) :
    a.tdiv b ≤ bound ↔ a < (bound + 1) * b := by
  rcases lt_or_ge a 0 with ha | ha
  · have hquotient : 0 ≤ (-a).tdiv b := Int.tdiv_nonneg (neg_nonneg.mpr ha.le) hb.le
    rw [Int.neg_tdiv, neg_nonneg] at hquotient
    have hproduct : 0 ≤ (bound + 1) * b := by positivity
    exact iff_of_true (hquotient.trans hbound) (ha.trans_le hproduct)
  · rw [Int.tdiv_eq_ediv_of_nonneg ha, ← Int.lt_add_one_iff, Int.ediv_lt_iff_lt_mul hb]

theorem le_tdiv_iff (hb : 0 < b) (hbound : bound ≤ 0) :
    bound ≤ a.tdiv b ↔ (bound - 1) * b < a := by
  have hneg := tdiv_le_iff (a := -a) hb (neg_nonneg.mpr hbound)
  rw [Int.neg_tdiv, neg_le_neg_iff] at hneg
  rw [hneg, ← neg_lt_neg_iff]
  ring_nf

/-- A quotient with its fraction dropped is an integer of the type if it lies strictly between the
two next ones. -/
theorem IntType.contains_tdiv_iff (t : IntType) (s : Signedness) (hb : 0 < b) :
    t.Contains s (a.tdiv b) ↔ (t.least s - 1) * b < a ∧ a < (t.greatest s + 1) * b := by
  have hleast : t.least s ≤ 0 := by cases t <;> cases s <;> decide
  have hgreatest : 0 ≤ t.greatest s := by cases t <;> cases s <;> decide
  rw [← le_tdiv_iff hb hleast, ← tdiv_le_iff hb hgreatest]
  exact ⟨fun h => ⟨h.least_le, h.le_greatest⟩, fun h => ⟨h.1, h.2⟩⟩

end

namespace TruncationRange

/-- No number of the format lies between the lower bound and `least - 1`, and the upper bound is
`greatest + 1`. The pattern below that of a negative bound denotes the next number above it. -/
structure Delimits (r : TruncationRange) (F : Format) (least greatest : ℤ) : Prop where
  lower_finite : F.magnitude (F.ofInteger r.lower) < F.infinity
  lower_le : F.signedUnits (F.ofInteger r.lower) ≤ (least - 1) * F.one
  lt_next : (least - 1) * F.one < F.signedUnits (F.ofInteger r.lower - 1)
  key_next : F.orderKey (F.ofInteger r.lower - 1) = F.orderKey (F.ofInteger r.lower) + 1
  upper_finite : F.magnitude (F.ofInteger r.upper) < F.infinity
  upper_eq : F.signedUnits (F.ofInteger r.upper) = (greatest + 1) * F.one

theorem ofTypes_delimits (t : IntType) (f : FloatType) (s : Signedness) :
    (ofTypes t f s).Delimits f.format (t.least s) (t.greatest s) := by
  cases t <;> cases f <;> cases s <;> constructor <;> decide +kernel

section
variable {r : TruncationRange} {F : Format} {least greatest : ℤ} {x : Nat}

/-- The comparison with the bounds is one with the two integers next to the range. -/
theorem Delimits.admits_iff (h : r.Delimits F least greatest) (hx : F.isNaN x = false) :
    r.admits F x = true ↔
      (least - 1) * F.one < F.signedUnits x ∧ F.signedUnits x < (greatest + 1) * F.one := by
  have hlower : F.isNaN (F.ofInteger r.lower) = false := by
    simpa [Format.isNaN] using h.lower_finite.le
  have hupper : F.isNaN (F.ofInteger r.upper) = false := by
    simpa [Format.isNaN] using h.upper_finite.le
  rw [admits, Bool.and_eq_true, FloatCompare.eval, FloatCompare.eval, Format.less_iff hlower hx,
    Format.less_iff hx hupper, ← h.upper_eq, Format.signedUnits_lt_iff]
  refine and_congr_left fun _ => ⟨fun hkey => ?_, fun hvalue => ?_⟩
  -- A key above that of the lower bound is no less than the next key, which is beyond `least - 1`.
  · have hnext : F.orderKey (F.ofInteger r.lower - 1) ≤ F.orderKey x := by
      rw [h.key_next]
      exact hkey
    rw [← not_lt, ← Format.signedUnits_lt_iff, not_lt] at hnext
    exact h.lt_next.trans_le hnext
  · rw [← Format.signedUnits_lt_iff]
    exact h.lower_le.trans_lt hvalue

/-- The bounds themselves are numbers, so an infinity lies beyond one of them. -/
theorem Delimits.admits_infinite (h : r.Delimits F least greatest) (hx : F.isInfinite x = true) :
    r.admits F x = false := by
  have hinfinite : F.magnitude x = F.infinity := beq_iff_eq.mp hx
  have hlower := h.lower_finite
  have hupper := h.upper_finite
  rw [← Format.natAbs_orderKey] at hinfinite hlower hupper
  rw [← Bool.not_eq_true]
  simp only [admits, FloatCompare.eval, Format.less, Bool.and_eq_true, decide_eq_true_eq]
  omega

end

end TruncationRange

/-- Dropping the fraction of a quotient is rounding it toward zero. -/
theorem truncated?_div (a : ℤ) {b : ℕ} (hb : 0 < b) :
    (Datum.finite (a / b)).truncated? = some (a.tdiv b) := by
  have hb' : (0 : ℚ) < b := Nat.cast_pos.mpr hb
  have hsign : (a / b : ℚ) < 0 ↔ a < 0 := by
    rw [div_lt_iff₀ hb', zero_mul, Int.cast_lt_zero]
  simp only [Datum.truncated?, hsign]
  split
  · next ha =>
    have hneg : (-a).tdiv b = -a / b := Int.tdiv_eq_ediv_of_nonneg (neg_nonneg.mpr ha.le)
    rw [Rat.ceil_intCast_div_natCast, ← hneg, Int.neg_tdiv, neg_neg]
  · next ha =>
    rw [Rat.floor_intCast_div_natCast, Int.tdiv_eq_ediv_of_nonneg (not_lt.mp ha)]

theorem Cell.word_ofWord (t : IntType) (y : BitVec t.bits) : (ofWord t y).word t = y := by
  have hbits : t.bits ≤ 64 := by cases t <;> decide
  rw [word, ofWord, BitVec.setWidth_setWidth_of_le y hbits, BitVec.setWidth_eq]

/-- An integer of the type is read back from its word. -/
theorem IntType.Contains.value_ofInt {t : IntType} {s : Signedness} {n : ℤ} (h : t.Contains s n) :
    Word.value s (BitVec.ofInt t.bits n) = n := by
  obtain ⟨hleast, hgreatest⟩ := h
  cases s with
  | unsigned =>
    rw [IntType.greatest] at hgreatest
    rw [Word.value, BitVec.toNat_ofInt]
    show ((n % (2 ^ t.bits : ℤ)).toNat : ℤ) = n
    rw [Int.emod_eq_of_lt hleast (by omega)]
    exact Int.toNat_of_nonneg hleast
  | signed =>
    have hpos : 0 < t.bits := by cases t <;> decide
    rw [IntType.least] at hleast
    rw [IntType.greatest] at hgreatest
    exact BitVec.toInt_ofInt_eq_self hpos hleast (by omega)

/-- What a truncation makes of a cell, by what the pattern in it denotes. -/
theorem Conversion.eval_truncate (t : IntType) (f : FloatType) (s : Signedness) (c : Cell) :
    let d := f.format.datum (c.bitsOf f.valType)
    d = .nan ∧ eval (.truncate t f s) c = .error .invalidConversionToInteger ∨
      (d ≠ .nan ∧ ∀ n, d.truncated? = some n → ¬t.Contains s n) ∧
        eval (.truncate t f s) c = .error .integerOverflow ∨
      ∃ n, d.truncated? = some n ∧ t.Contains s n ∧
        eval (.truncate t f s) c = .ok (Cell.ofWord t (BitVec.ofInt t.bits n)) := by
  have hformat : 2 ≤ f.format.exponentBits := by cases f <;> decide
  have hdelimits := TruncationRange.ofTypes_delimits t f s
  dsimp only
  generalize hx : c.bitsOf f.valType = x
  rw [Format.datum_eq hformat]
  cases hnan : f.format.isNaN x with
  | true => simp [eval, hx, hnan]
  | false =>
    cases hinfinite : f.format.isInfinite x with
    | true =>
      have hadmits := hdelimits.admits_infinite hinfinite
      simp [eval, hx, hnan, hadmits, Datum.truncated?]
    | false =>
      have hwhole := truncated?_div (f.format.signedUnits x) f.format.one_pos
      have hadmits := hdelimits.admits_iff hnan
      rw [← IntType.contains_tdiv_iff t s (Int.natCast_pos.mpr f.format.one_pos)] at hadmits
      by_cases hcontains : t.Contains s ((f.format.signedUnits x).tdiv f.format.one)
      · refine .inr (.inr ⟨_, hwhole, hcontains, ?_⟩)
        simp [eval, hx, hnan, hadmits.mpr hcontains, Format.truncate]
      · refine .inr (.inl ⟨⟨by simp, fun n hn => ?_⟩, ?_⟩)
        · obtain rfl := Option.some.inj (hwhole.symm.trans hn)
          exact hcontains
        · simp [eval, hx, hnan, mt hadmits.mp hcontains]

/-- Truncations are exact at every boundary. An instruction traps for a NaN, and for anything else
exactly if rounding toward zero leaves no integer of the destination type; where there is one, it
takes the place of the operand in two's complement. -/
theorem truncations_exact (obs : Observers) (i : InstanceId) (code : Code) (t : IntType)
    (f : FloatType) (s : Signedness) (next : Nat) (frame : Frame) (m : Machine) :
    let d := f.format.datum (frame.peek.bitsOf f.valType)
    let outcome := step obs i code (.unary (.convert (.truncate t f s))) next frame m
    (outcome = .trap .invalidConversionToInteger m ↔ d = .nan) ∧
      (outcome = .trap .integerOverflow m ↔
        d ≠ .nan ∧ ∀ n, d.truncated? = some n → ¬t.Contains s n) ∧
      ∀ n, d.truncated? = some n → t.Contains s n →
        ∃ c, outcome = .goto next (frame.setTop c) m ∧ c.Encodes t.valType n ∧
          Word.value s (c.word t) = n := by
  intro d outcome
  have houtcome : outcome =
    .ofNumeric next frame m (Conversion.eval (.truncate t f s) frame.peek) := rfl
  rcases Conversion.eval_truncate t f s frame.peek with
    ⟨hnan, heval⟩ | ⟨⟨hnan, hnone⟩, heval⟩ | ⟨n, hwhole, hcontains, heval⟩
  · rw [houtcome, heval]
    have hnone : d.truncated? = none := congrArg Datum.truncated? hnan
    refine ⟨iff_of_true rfl hnan, iff_of_false (by simp [Outcome.ofNumeric]) fun h => h.1 hnan, ?_⟩
    intro n hn
    cases hnone.symm.trans hn
  · rw [houtcome, heval]
    refine ⟨iff_of_false (by simp [Outcome.ofNumeric]) hnan, iff_of_true rfl ⟨hnan, hnone⟩, ?_⟩
    intro n hn hcontains
    exact absurd hcontains (hnone n hn)
  · rw [houtcome, heval]
    have hnan : d ≠ .nan := fun h => by
      have hnone : d.truncated? = none := congrArg Datum.truncated? h
      cases hnone.symm.trans hwhole
    refine ⟨iff_of_false (by simp [Outcome.ofNumeric]) hnan,
      iff_of_false (by simp [Outcome.ofNumeric]) fun h => h.2 n hwhole hcontains, ?_⟩
    intro k hk _
    obtain rfl := Option.some.inj (hwhole.symm.trans hk)
    refine ⟨_, rfl, Cell.encodes_ofWord t n, ?_⟩
    rw [Cell.word_ofWord]
    exact hcontains.value_ofInt

/-- The least 32-bit integer is the last single-precision number that passes on its side: the next
one below traps, and so does a NaN. -/
theorem least_word_truncated :
    let outcome (x : Cell) := step {} 0 {} (.unary (.convert (.truncate .i32 .f32 .signed))) 1
      { slots := #[0, x], localCount := 0, top := 1 } {}
    (∃ c, outcome 0xcf000000 =
        .goto 1 (Frame.setTop { slots := #[0, 0xcf000000], localCount := 0, top := 1 } c) {} ∧
      c.Encodes .i32 (-2147483648) ∧ Word.value .signed (c.word .i32) = -2147483648) ∧
      outcome 0xcf000001 = .trap .integerOverflow {} ∧
      outcome 0x7fc00000 = .trap .invalidConversionToInteger {} := by
  intro outcome
  have hexact (x : Cell) := truncations_exact {} 0 {} .i32 .f32 .signed 1
    { slots := #[0, x], localCount := 0, top := 1 } {}
  refine ⟨(hexact 0xcf000000).2.2 _ ?_ ?_, (hexact 0xcf000001).2.1.mpr ⟨?_, fun n hn => ?_⟩,
    (hexact 0x7fc00000).1.mpr ?_⟩
  · show (Format.binary32.datum 0xcf000000).truncated? = some (-2147483648)
    decide +kernel
  · exact ⟨by decide, by decide⟩
  · show Format.binary32.datum 0xcf000001 ≠ .nan
    decide +kernel
  · have hwhole : (Format.binary32.datum 0xcf000001).truncated? = some (-2147483904) := by
      decide +kernel
    obtain rfl := Option.some.inj (hwhole.symm.trans hn)
    exact fun h => absurd h.least_le (by decide)
  · show Format.binary32.datum 0x7fc00000 = .nan
    decide +kernel

end WasmEngine
