import WasmEngine.Proofs.Numeric.Truncation

/-!
# Division with remainder

The division and the remainder instruction of one signedness fit together: read as integers, what
they leave for a pair of operands is the quotient rounded toward zero and the remainder that belongs
to it. The least signed word divided by minus one is the only pair with a remainder but no quotient.
-/
namespace WasmEngine
set_option autoImplicit false

/-- `q` is a quotient and `r` the remainder of `x` by `y`; a remainder has the sign of the
dividend. -/
structure DivisionWithRemainder (x y q r : ℤ) : Prop where
  eq : x = y * q + r
  lt : |r| < |y|
  sign : r = 0 ∨ r.sign = x.sign

/-- Dropping the fraction of the quotient leaves a remainder on the side of the dividend. -/
theorem divisionWithRemainder_tdiv (x : ℤ) {y : ℤ} (hy : y ≠ 0) :
    DivisionWithRemainder x y (x.tdiv y) (x.tmod y) := by
  refine ⟨(Int.mul_tdiv_add_tmod x y).symm, ?_, ?_⟩
  · rw [Int.abs_eq_natAbs, Int.abs_eq_natAbs, Int.natAbs_tmod, Nat.cast_lt]
    exact Nat.mod_lt _ (Int.natAbs_pos.mpr hy)
  · by_cases hdvd : y ∣ x
    · exact .inl (Int.tmod_eq_zero_of_dvd hdvd)
    · refine .inr ?_
      rw [Int.sign_tmod, if_neg hdvd]

namespace Word

section
variable {w : Nat} {s : Signedness} {x y q r : BitVec w}

theorem value_eq_zero_iff : value s y = 0 ↔ y = 0 := by
  cases s with
  | unsigned =>
    rw [value, Int.natCast_eq_zero, ← BitVec.toNat_inj]
    exact Iff.of_eq (congrArg _ BitVec.toNat_zero.symm)
  | signed =>
    rw [value, ← BitVec.toInt_inj (y := 0)]
    exact Iff.of_eq (congrArg _ BitVec.toInt_zero.symm)

/-- The words of the pair without a quotient, by their values. -/
theorem value_signed_iff (hw : 0 < w) :
    value .signed x = -2 ^ (w - 1) ∧ value .signed y = -1 ↔
      x = BitVec.intMin w ∧ y = BitVec.allOnes w := by
  have hleast : (BitVec.intMin w).toInt = -2 ^ (w - 1) := BitVec.toInt_intMin_of_pos hw
  have hminus : (BitVec.allOnes w).toInt = -1 := BitVec.toInt_allOnes.trans (if_pos hw)
  rw [← hleast, ← hminus]
  exact and_congr BitVec.toInt_inj BitVec.toInt_inj

theorem value_divide (h : divide s x y = .ok q) : value s q = (value s x).tdiv (value s y) := by
  unfold divide at h
  split at h
  · cases h
  · cases s with
    | unsigned =>
      obtain rfl := Except.ok.inj h
      rw [value, value, value, BitVec.toNat_udiv]
      exact Int.ofNat_tdiv _ _
    | signed =>
      dsimp only at h
      split at h
      · cases h
      · next hfits =>
        obtain rfl := Except.ok.inj h
        refine BitVec.toInt_sdiv_of_ne_or_ne x y ?_
        rw [BitVec.neg_one_eq_allOnes]
        exact not_and_or.mp hfits

/-- Minus one leaves no remainder. -/
theorem srem_allOnes (hw : 0 < w) (x : BitVec w) : x.srem (BitVec.allOnes w) = 0 := by
  apply BitVec.eq_of_toInt_eq
  rw [BitVec.toInt_srem, BitVec.toInt_allOnes, if_pos hw, Int.tmod_neg, Int.tmod_one]
  simp

/-- The branch for a divisor of minus one gives what the division gives. -/
theorem remainder_signed (hy : y ≠ 0) : remainder .signed x y = .ok (x.srem y) := by
  rw [remainder, if_neg hy]
  by_cases hminus : y = BitVec.allOnes w
  · have hw : 0 < w := by
      apply Nat.pos_of_ne_zero
      rintro rfl
      exact hy (BitVec.eq_of_zero_length rfl)
    rw [hminus, srem_allOnes hw]
    exact if_pos rfl
  · exact if_neg hminus

theorem value_remainder (hy : y ≠ 0) (h : remainder s x y = .ok r) :
    value s r = (value s x).tmod (value s y) := by
  cases s with
  | unsigned =>
    rw [remainder, if_neg hy] at h
    obtain rfl := Except.ok.inj h
    rw [value, value, value, BitVec.toNat_umod]
    exact Int.ofNat_tmod _ _
  | signed =>
    rw [remainder_signed hy] at h
    obtain rfl := Except.ok.inj h
    exact BitVec.toInt_srem x y

end

/-- The pair of operands whose quotient toward zero is no word: the least integer and minus one. -/
def Overflows (w : Nat) (s : Signedness) (x y : ℤ) : Prop :=
  s = .signed ∧ x = -2 ^ (w - 1) ∧ y = -1

/-- How a division and a remainder of the same words end, by the integers that the words are read
as. -/
inductive Divided {w : Nat} (s : Signedness) (x y : BitVec w) :
    Except TrapKind (BitVec w) → Except TrapKind (BitVec w) → Prop
  | byZero (zero : value s y = 0) :
      Divided s x y (.error .integerDivideByZero) (.error .integerDivideByZero)
  | overflow (r : BitVec w) (overflows : Overflows w s (value s x) (value s y))
      (rest : value s r = 0) : Divided s x y (.error .integerOverflow) (.ok r)
  | exact (q r : BitVec w) (nonzero : value s y ≠ 0)
      (fits : ¬Overflows w s (value s x) (value s y))
      (division : DivisionWithRemainder (value s x) (value s y) (value s q) (value s r)) :
      Divided s x y (.ok q) (.ok r)

theorem divided {w : Nat} (hw : 0 < w) (s : Signedness) (x y : BitVec w) :
    Divided s x y (divide s x y) (remainder s x y) := by
  by_cases hy : y = 0
  · unfold divide remainder
    rw [if_pos hy, if_pos hy]
    exact .byZero (value_eq_zero_iff.mpr hy)
  · have hnonzero : value s y ≠ 0 := fun h => hy (value_eq_zero_iff.mp h)
    obtain ⟨r, hr⟩ : ∃ r, remainder s x y = .ok r := by
      cases s with
      | unsigned => exact ⟨_, if_neg hy⟩
      | signed => exact ⟨_, remainder_signed hy⟩
    have hrest := value_remainder hy hr
    by_cases hfits : Overflows w s (value s x) (value s y)
    · obtain ⟨rfl, hx, hminus⟩ := hfits
      have hdivide : divide .signed x y = .error .integerOverflow := by
        rw [divide, if_neg hy]
        exact if_pos ((value_signed_iff hw).mp ⟨hx, hminus⟩)
      rw [hdivide, hr]
      refine .overflow r ⟨rfl, hx, hminus⟩ ?_
      rw [hrest, hminus, Int.tmod_neg, Int.tmod_one]
    · obtain ⟨q, hq⟩ : ∃ q, divide s x y = .ok q := by
        unfold divide
        rw [if_neg hy]
        cases s with
        | unsigned => exact ⟨_, rfl⟩
        | signed => exact ⟨_, if_neg fun h => hfits ⟨rfl, (value_signed_iff hw).mpr h⟩⟩
      rw [hq, hr]
      refine .exact q r hnonzero hfits ?_
      rw [value_divide hq, hrest]
      exact divisionWithRemainder_tdiv _ hnonzero

end Word

/-- An operation on words traps exactly if it fails, and for the same reason. -/
theorem ofNumeric_word_eq_trap_iff {t : IntType} {next : Nat} {frame : Frame} {m : Machine}
    {result : Except TrapKind (BitVec t.bits)} {kind : TrapKind} :
    Outcome.ofNumeric next frame m (result.map (Cell.ofWord t)) = .trap kind m ↔
      result = .error kind := by
  cases result <;> simp [Outcome.ofNumeric, Except.map]

/-- Division and remainder of one signedness fit together. Both trap for a divisor of zero, and
besides that only the signed division traps, for the least integer and minus one, whose remainder is
zero. For all other operands the dividend is the divisor times the quotient plus the remainder, which
is smaller than the divisor and has the sign of the dividend. The results are well-formed, so those
of 32 bits have a zero upper half. -/
theorem division_exact (obs : Observers) (i : InstanceId) (code : Code) (t : IntType)
    (s : Signedness) (next : Nat) (frame : Frame) (m : Machine) :
    let x := Word.value s ((frame.operand 1).word t)
    let y := Word.value s (frame.peek.word t)
    let outcome (op : IntBinary) := step obs i code (.binary (.int t op)) next frame m
    let left (op : IntBinary) (c : Cell) :=
      outcome op = .goto next ((frame.drop 1).setTop c) m ∧ c.wellFormed t.valType = true
    (outcome (.div s) = .trap .integerDivideByZero m ↔ y = 0) ∧
      (outcome (.rem s) = .trap .integerDivideByZero m ↔ y = 0) ∧
      (outcome (.div s) = .trap .integerOverflow m ↔ Word.Overflows t.bits s x y) ∧
      (y ≠ 0 → ∃ r, left (.rem s) r ∧
        (Word.Overflows t.bits s x y → Word.value s (r.word t) = 0) ∧
        (¬Word.Overflows t.bits s x y → ∃ q, left (.div s) q ∧
          DivisionWithRemainder x y (Word.value s (q.word t)) (Word.value s (r.word t)))) := by
  intro x y outcome left
  have hbits : 0 < t.bits := by cases t <;> decide
  have hdivided := Word.divided hbits s ((frame.operand 1).word t) (frame.peek.word t)
  have hoverflow : Word.Overflows t.bits s x y → y ≠ 0 := fun h hzero =>
    absurd (h.2.2.symm.trans hzero) (by decide)
  have houtcome (op : IntBinary) : outcome op = .ofNumeric next (frame.drop 1) m
    ((op.eval ((frame.operand 1).word t) (frame.peek.word t)).map (Cell.ofWord t)) := rfl
  simp only [left, houtcome, ofNumeric_word_eq_trap_iff, IntBinary.eval]
  generalize Word.divide s _ _ = quotient at hdivided ⊢
  generalize Word.remainder s _ _ = rest at hdivided ⊢
  cases hdivided with
  | byZero hzero =>
    refine ⟨iff_of_true rfl hzero, iff_of_true rfl hzero, ?_, fun h => absurd hzero h⟩
    exact iff_of_false (by simp) fun h => hoverflow h hzero
  | overflow r hoverflows hr =>
    have hnonzero := hoverflow hoverflows
    refine ⟨iff_of_false (by simp) hnonzero, iff_of_false (by simp) hnonzero,
      iff_of_true rfl hoverflows, fun _ => ?_⟩
    refine ⟨_, ⟨rfl, Cell.ofWord_wellFormed t r⟩, fun _ => ?_, fun h => absurd hoverflows h⟩
    rw [Cell.word_ofWord, hr]
  | exact q r hnonzero hfits hdivision =>
    refine ⟨iff_of_false (by simp) hnonzero, iff_of_false (by simp) hnonzero,
      iff_of_false (by simp) hfits, fun _ => ?_⟩
    refine ⟨_, ⟨rfl, Cell.ofWord_wellFormed t r⟩, fun h => absurd h hfits, fun _ => ?_⟩
    refine ⟨_, ⟨rfl, Cell.ofWord_wellFormed t q⟩, ?_⟩
    rw [Cell.word_ofWord, Cell.word_ofWord]
    exact hdivision

/-- The least 32-bit integer by minus one has a remainder but no quotient; minus seven by two has
both. -/
theorem least_word_divided :
    let frame (x y : Cell) : Frame := { slots := #[0, x, y], localCount := 0, top := 2 }
    let outcome (x y : Cell) (op : IntBinary) := step {} 0 {} (.binary (.int .i32 op)) 1 (frame x y) {}
    outcome 0x80000000 0xffffffff (.div .signed) = .trap .integerOverflow {} ∧
      (∃ r, outcome 0x80000000 0xffffffff (.rem .signed) =
          .goto 1 (((frame 0x80000000 0xffffffff).drop 1).setTop r) {} ∧
        Word.value .signed (r.word .i32) = 0) ∧
      ∃ q r : Cell, outcome 0xfffffff9 2 (.div .signed) =
          .goto 1 (((frame 0xfffffff9 2).drop 1).setTop q) {} ∧
        outcome 0xfffffff9 2 (.rem .signed) =
          .goto 1 (((frame 0xfffffff9 2).drop 1).setTop r) {} ∧
        q.wellFormed .i32 = true ∧ r.wellFormed .i32 = true ∧
        DivisionWithRemainder (-7) 2 (Word.value .signed (q.word .i32))
          (Word.value .signed (r.word .i32)) := by
  intro frame outcome
  have hexact (x y : Cell) := division_exact {} 0 {} .i32 .signed 1 (frame x y) {}
  have hoverflows : Word.Overflows 32 .signed (-2147483648) (-1) := ⟨rfl, by decide, rfl⟩
  obtain ⟨-, -, htraps, hrest⟩ := hexact 0x80000000 0xffffffff
  obtain ⟨r, ⟨hr, -⟩, hzero, -⟩ := hrest (by decide)
  obtain ⟨r', ⟨hr', hr'formed⟩, -, hquotient⟩ := (hexact 0xfffffff9 2).2.2.2 (by decide)
  obtain ⟨q, ⟨hq, hqformed⟩, hdivision⟩ :=
    hquotient fun h => absurd (show (2 : ℤ) = -1 from h.2.2) (by decide)
  exact ⟨htraps.mpr hoverflows, ⟨r, hr, hzero hoverflows⟩, q, r', hq, hr', hqformed, hr'formed,
    hdivision⟩

end WasmEngine
