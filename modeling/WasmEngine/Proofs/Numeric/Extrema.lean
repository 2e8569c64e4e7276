import Mathlib.Data.Prod.Lex
import Mathlib.Order.WithBot
import WasmEngine.Execution.Step
import WasmEngine.Proofs.Numeric.Denotation

/-!
# Minimum and maximum

The patterns that are not NaNs are totally ordered by the numbers they stand for, the negative zero
below the positive one. The engine has no such order: it compares numbers, to which the two zeros are
equal, and treats a pair of zeros apart by the sign of the first. In each of these branches the
operand that is returned is the lower or the higher one in the order, so the operations have the laws
of a lattice bit for bit.
-/
namespace WasmEngine
set_option autoImplicit false

/-- Where a datum lies among the numbers and the two infinities. That of a NaN is of no
consequence. -/
def Datum.place : Datum → WithBot (WithTop ℚ)
  | .finite q => ((q : WithTop ℚ) : WithBot (WithTop ℚ))
  | .infinite true => ⊥
  | .infinite false => ⊤
  | .nan => ⊤

/-- The numbers between two ends, each in a lower and an upper place. -/
abbrev Rank := WithBot (WithTop ℚ) ×ₗ Bool

namespace Format

/-- Where a pattern lies among the patterns that are not NaNs: the sign bit decides between the
zeros. -/
def rank (F : Format) (x : Nat) : Rank :=
  toLex ((F.datum x).place, !F.negative x)

/-- An operation on patterns chooses one of its operands by their ranks. -/
structure Selects (F : Format) (op : Nat → Nat → Nat) (choose : Rank → Rank → Rank) : Prop where
  nan : ∀ {a b}, F.datum a = .nan ∨ F.datum b = .nan → op a b = F.canonicalNaN
  chosen : ∀ {a b}, F.datum a ≠ .nan → F.datum b ≠ .nan → op a b = a ∨ op a b = b
  rank : ∀ {a b}, F.datum a ≠ .nan → F.datum b ≠ .nan →
    F.rank (op a b) = choose (F.rank a) (F.rank b)

section
variable {F : Format} {a b c : Nat}

theorem isNaN_eq_false (hF : 2 ≤ F.exponentBits) (ha : F.datum a ≠ .nan) : F.isNaN a = false :=
  Bool.eq_false_iff.mpr (mt (datum_eq_nan_iff hF).mpr ha)

/-- What is not a NaN lies at one of the two ends or is a number between them, and so does the key
that the engine compares. -/
theorem place_cases (hF : 2 ≤ F.exponentBits) (ha : F.datum a ≠ .nan) :
    (F.orderKey a = -F.infinity ∧ (F.datum a).place = ⊥) ∨
      ((F.orderKey a).natAbs < F.infinity ∧
        (F.datum a).place = ((F.signedUnits a / F.one : ℚ) : WithTop ℚ)) ∨
      (F.orderKey a = F.infinity ∧ (F.datum a).place = ⊤) := by
  have hnan := isNaN_eq_false hF ha
  rw [datum_eq hF, if_neg (Bool.eq_false_iff.mp hnan), natAbs_orderKey, orderKey]
  cases hinfinite : F.isInfinite a with
  | true =>
    rw [beq_iff_eq.mp hinfinite]
    cases F.negative a with
    | true => exact .inl ⟨rfl, rfl⟩
    | false => exact .inr (.inr ⟨rfl, rfl⟩)
  | false =>
    have hle : F.magnitude a ≤ F.infinity := not_lt.mp (decide_eq_false_iff_not.mp hnan)
    exact .inr (.inl ⟨lt_of_le_of_ne hle (beq_eq_false_iff_ne.mp hinfinite), rfl⟩)

theorem infinity_pos (hF : 2 ≤ F.exponentBits) : 0 < F.infinity := by
  have hpow : 2 ^ 2 ≤ 2 ^ F.exponentBits := Nat.pow_le_pow_right (by decide) hF
  rw [infinity_eq]
  exact Nat.mul_pos (by omega) (Nat.two_pow_pos _)

/-- The places of patterns that are not NaNs are ordered as their keys. -/
theorem place_lt_iff (hF : 2 ≤ F.exponentBits) (ha : F.datum a ≠ .nan) (hb : F.datum b ≠ .nan) :
    (F.datum a).place < (F.datum b).place ↔ F.orderKey a < F.orderKey b := by
  have hone : (0 : ℚ) < F.one := Nat.cast_pos.mpr F.one_pos
  have hinfinity := infinity_pos hF
  have htop (q : ℚ) : ((q : WithTop ℚ) : WithBot (WithTop ℚ)) < ⊤ :=
    WithBot.coe_lt_coe.mpr (WithTop.coe_lt_top q)
  rcases place_cases hF ha with ⟨hka, hpa⟩ | ⟨hka, hpa⟩ | ⟨hka, hpa⟩ <;>
    rcases place_cases hF hb with ⟨hkb, hpb⟩ | ⟨hkb, hpb⟩ | ⟨hkb, hpb⟩ <;> rw [hpa, hpb]
  -- Two numbers compare as the units that the engine counts.
  case inr.inl.inr.inl =>
    rw [WithBot.coe_lt_coe, WithTop.coe_lt_coe, div_lt_div_iff_of_pos_right hone, Int.cast_lt,
      signedUnits_lt_iff]
  all_goals
    simp only [lt_self_iff_false, bot_lt_top, not_lt_bot, not_top_lt, WithBot.bot_lt_coe, htop,
      true_iff, false_iff]
    omega

theorem place_eq_iff (hF : 2 ≤ F.exponentBits) (ha : F.datum a ≠ .nan) (hb : F.datum b ≠ .nan) :
    (F.datum a).place = (F.datum b).place ↔ F.orderKey a = F.orderKey b := by
  rw [← not_iff_not, ← Ne, ← Ne, ne_iff_lt_or_gt, ne_iff_lt_or_gt]
  exact or_congr (place_lt_iff hF ha hb) (place_lt_iff hF hb ha)

/-- No two patterns have the same rank. -/
theorem rank_injective (hF : 2 ≤ F.exponentBits) (hwa : a < 2 ^ F.width)
    (hwb : b < 2 ^ F.width) (ha : F.datum a ≠ .nan) (hb : F.datum b ≠ .nan)
    (h : F.rank a = F.rank b) : a = b := by
  obtain ⟨hplace, hsign⟩ := Prod.mk.inj (toLex.injective h)
  have hnegative : F.negative a = F.negative b := Bool.not_inj hsign
  have hmagnitude : F.magnitude a = F.magnitude b := by
    rw [← natAbs_orderKey, ← natAbs_orderKey, (place_eq_iff hF ha hb).mp hplace]
  rw [← signed_eq_self hwa, ← signed_eq_self hwb, hnegative, hmagnitude]

/-! ### The choice of an operand -/

/-- Of two zeros a negative one is the lower, and a positive one the higher. -/
theorem rank_le_of_zeros (hF : 2 ≤ F.exponentBits) (ha : F.datum a ≠ .nan) (hb : F.datum b ≠ .nan)
    (hkeys : F.orderKey a = 0 ∧ F.orderKey b = 0)
    (hsign : F.negative a = true ∨ F.negative b = false) : F.rank a ≤ F.rank b := by
  have hplace := (place_eq_iff hF ha hb).mpr (hkeys.1.trans hkeys.2.symm)
  refine Prod.Lex.toLex_le_toLex.mpr (.inr ⟨hplace, ?_⟩)
  rcases hsign with hsign | hsign <;> simp [hsign]

/-- Of two patterns that are not both zeros the one with the lower key is the lower: where the keys
are equal, so are the signs. -/
theorem rank_le_of_keys (hF : 2 ≤ F.exponentBits) (ha : F.datum a ≠ .nan) (hb : F.datum b ≠ .nan)
    (hkeys : ¬(F.orderKey a = 0 ∧ F.orderKey b = 0)) (hle : F.orderKey a ≤ F.orderKey b) :
    F.rank a ≤ F.rank b := by
  rw [rank, rank, Prod.Lex.toLex_le_toLex]
  rcases hle.lt_or_eq with hlt | heq
  · exact .inl ((place_lt_iff hF ha hb).mpr hlt)
  · refine .inr ⟨(place_eq_iff hF ha hb).mpr heq, ?_⟩
    unfold orderKey at hkeys heq
    cases hna : F.negative a <;> cases hnb : F.negative b <;> simp [hna, hnb] at hkeys heq ⊢
    omega

/-- Minimum returns one of the operands, and the other is not lower. -/
theorem min_cases (hF : 2 ≤ F.exponentBits) (ha : F.datum a ≠ .nan) (hb : F.datum b ≠ .nan) :
    (F.min a b = a ∧ F.rank a ≤ F.rank b) ∨ (F.min a b = b ∧ F.rank b ≤ F.rank a) := by
  have hna := isNaN_eq_false hF ha
  have hnb := isNaN_eq_false hF hb
  simp only [min, hna, hnb, Bool.or_self, Bool.false_eq_true, if_false, Bool.and_eq_true,
    equal_zero_iff hna, equal_zero_iff hnb, less_iff hnb hna]
  split
  · next hzeros =>
    split
    · next hsign => exact .inl ⟨rfl, rank_le_of_zeros hF ha hb hzeros (.inl hsign)⟩
    · next hsign =>
      exact .inr ⟨rfl, rank_le_of_zeros hF hb ha hzeros.symm (.inr (Bool.eq_false_iff.mpr hsign))⟩
  · next hzeros =>
    split
    · next hlt => exact .inr ⟨rfl, rank_le_of_keys hF hb ha (mt And.symm hzeros) hlt.le⟩
    · next hle => exact .inl ⟨rfl, rank_le_of_keys hF ha hb hzeros (not_lt.mp hle)⟩

/-- Maximum returns one of the operands, and the other is not higher. -/
theorem max_cases (hF : 2 ≤ F.exponentBits) (ha : F.datum a ≠ .nan) (hb : F.datum b ≠ .nan) :
    (F.max a b = a ∧ F.rank b ≤ F.rank a) ∨ (F.max a b = b ∧ F.rank a ≤ F.rank b) := by
  have hna := isNaN_eq_false hF ha
  have hnb := isNaN_eq_false hF hb
  simp only [max, hna, hnb, Bool.or_self, Bool.false_eq_true, if_false, Bool.and_eq_true,
    equal_zero_iff hna, equal_zero_iff hnb, less_iff hna hnb]
  split
  · next hzeros =>
    split
    · next hsign => exact .inr ⟨rfl, rank_le_of_zeros hF ha hb hzeros (.inl hsign)⟩
    · next hsign =>
      exact .inl ⟨rfl, rank_le_of_zeros hF hb ha hzeros.symm (.inr (Bool.eq_false_iff.mpr hsign))⟩
  · next hzeros =>
    split
    · next hlt => exact .inr ⟨rfl, rank_le_of_keys hF ha hb hzeros hlt.le⟩
    · next hle => exact .inl ⟨rfl, rank_le_of_keys hF hb ha (mt And.symm hzeros) (not_lt.mp hle)⟩

/-- Minimum chooses the operand of the lower rank. -/
theorem min_selects (hF : 2 ≤ F.exponentBits) : F.Selects F.min Min.min where
  nan {a b} h := by
    rw [datum_eq_nan_iff hF, datum_eq_nan_iff hF, ← Bool.or_eq_true] at h
    exact if_pos h
  chosen ha hb := (min_cases hF ha hb).imp And.left And.left
  rank {a b} ha hb := by
    rcases min_cases hF ha hb with ⟨hmin, hle⟩ | ⟨hmin, hle⟩
    · rw [hmin, min_eq_left hle]
    · rw [hmin, min_eq_right hle]

/-- Maximum chooses the operand of the higher rank. -/
theorem max_selects (hF : 2 ≤ F.exponentBits) : F.Selects F.max Max.max where
  nan {a b} h := by
    rw [datum_eq_nan_iff hF, datum_eq_nan_iff hF, ← Bool.or_eq_true] at h
    exact if_pos h
  chosen ha hb := (max_cases hF ha hb).imp And.left And.left
  rank {a b} ha hb := by
    rcases max_cases hF ha hb with ⟨hmax, hle⟩ | ⟨hmax, hle⟩
    · rw [hmax, max_eq_left hle]
    · rw [hmax, max_eq_right hle]

end

/-- The laws of a semilattice, on all patterns and, that of idempotence, on those that are not
NaNs. -/
structure Semilattice (F : Format) (op : Nat → Nat → Nat) : Prop where
  lt : ∀ {a b}, a < 2 ^ F.width → b < 2 ^ F.width → op a b < 2 ^ F.width
  comm : ∀ {a b}, a < 2 ^ F.width → b < 2 ^ F.width → op a b = op b a
  assoc : ∀ {a b c}, a < 2 ^ F.width → b < 2 ^ F.width → c < 2 ^ F.width →
    op (op a b) c = op a (op b c)
  idem : ∀ {a}, F.datum a ≠ .nan → op a a = a

namespace Selects

variable {f : FloatType} {op : Nat → Nat → Nat} {a b c : Nat}
  {choose : Rank → Rank → Rank}

theorem lt (h : f.format.Selects op choose) (ha : a < 2 ^ f.format.width)
    (hb : b < 2 ^ f.format.width) : op a b < 2 ^ f.format.width := by
  by_cases hnan : f.format.datum a = .nan ∨ f.format.datum b = .nan
  · rw [h.nan hnan]
    exact f.canonicalNaN_lt
  · obtain ⟨hna, hnb⟩ := not_or.mp hnan
    rcases h.chosen hna hnb with hop | hop <;> rw [hop] <;> assumption

/-- The result is a NaN exactly if an operand is. -/
theorem datum_eq_nan_iff (h : f.format.Selects op choose) :
    f.format.datum (op a b) = .nan ↔ f.format.datum a = .nan ∨ f.format.datum b = .nan := by
  by_cases hnan : f.format.datum a = .nan ∨ f.format.datum b = .nan
  · rw [h.nan hnan]
    exact iff_of_true f.datum_canonicalNaN hnan
  · obtain ⟨hna, hnb⟩ := not_or.mp hnan
    refine iff_of_false ?_ hnan
    rcases h.chosen hna hnb with hop | hop <;> rw [hop] <;> assumption

/-- The laws of the choice are laws of the operation, since ranks tell patterns apart. -/
theorem semilattice (h : f.format.Selects op choose) (hcomm : ∀ r s, choose r s = choose s r)
    (hassoc : ∀ r s t, choose (choose r s) t = choose r (choose s t)) :
    f.format.Semilattice op where
  lt ha hb := h.lt ha hb
  comm {a b} ha hb := by
    by_cases hnan : f.format.datum a = .nan ∨ f.format.datum b = .nan
    · rw [h.nan hnan, h.nan hnan.symm]
    · have hop : f.format.datum (op a b) ≠ .nan := mt h.datum_eq_nan_iff.mp hnan
      have hop' : f.format.datum (op b a) ≠ .nan := mt h.datum_eq_nan_iff.mp (mt Or.symm hnan)
      obtain ⟨hna, hnb⟩ := not_or.mp hnan
      refine rank_injective f.two_le_exponentBits (h.lt ha hb) (h.lt hb ha) hop hop' ?_
      rw [h.rank hna hnb, h.rank hnb hna, hcomm]
  assoc {a b c} ha hb hc := by
    by_cases hnan : f.format.datum (op (op a b) c) = .nan
    · have hnan' : f.format.datum (op a (op b c)) = .nan := by
        rwa [h.datum_eq_nan_iff, h.datum_eq_nan_iff, or_assoc, ← h.datum_eq_nan_iff (a := b),
          ← h.datum_eq_nan_iff] at hnan
      rw [h.nan (h.datum_eq_nan_iff.mp hnan), h.nan (h.datum_eq_nan_iff.mp hnan')]
    · have hnan' : f.format.datum (op a (op b c)) ≠ .nan := by
        rwa [h.datum_eq_nan_iff, h.datum_eq_nan_iff, or_assoc, ← h.datum_eq_nan_iff (a := b),
          ← h.datum_eq_nan_iff] at hnan
      obtain ⟨hnab, hnc⟩ := not_or.mp (mt h.datum_eq_nan_iff.mpr hnan)
      obtain ⟨hna, hnbc⟩ := not_or.mp (mt h.datum_eq_nan_iff.mpr hnan')
      obtain ⟨-, hnb⟩ := not_or.mp (mt h.datum_eq_nan_iff.mpr hnab)
      refine rank_injective f.two_le_exponentBits (h.lt (h.lt ha hb) hc) (h.lt ha (h.lt hb hc))
        hnan hnan' ?_
      rw [h.rank hnab hnc, h.rank hna hnb, h.rank hna hnbc, h.rank hnb hnc, hassoc]
  idem hna := (h.chosen hna hna).elim id id

/-- Of two operations one absorbs the other if their choices do. -/
theorem absorbs {op' : Nat → Nat → Nat} {choose' : Rank → Rank → Rank}
    (h : f.format.Selects op choose) (h' : f.format.Selects op' choose')
    (hchoose : ∀ r s, choose r (choose' r s) = r) (ha : a < 2 ^ f.format.width)
    (hb : b < 2 ^ f.format.width) (hna : f.format.datum a ≠ .nan)
    (hnb : f.format.datum b ≠ .nan) : op a (op' a b) = a := by
  have hop' : f.format.datum (op' a b) ≠ .nan := mt h'.datum_eq_nan_iff.mp (not_or.mpr ⟨hna, hnb⟩)
  have hop : f.format.datum (op a (op' a b)) ≠ .nan :=
    mt h.datum_eq_nan_iff.mp (not_or.mpr ⟨hna, hop'⟩)
  refine rank_injective f.two_le_exponentBits (h.lt ha (h'.lt ha hb)) ha hop hna ?_
  rw [h.rank hna hop', h'.rank hna hnb, hchoose]

end Selects

end Format

/-- Minimum and maximum are exact and have the laws of a lattice. The instructions leave what the
operations make of the patterns of their operands: the positive quiet NaN without other payload if
one of them is a NaN, and otherwise the one of the lower or the higher rank, which is a single
pattern. Both operations are commutative and associative on all patterns, and on those that are not
NaNs they are idempotent and absorb each other. -/
theorem extrema_exact (obs : Observers) (i : InstanceId) (code : Code) (f : FloatType) :
    let F := f.format
    (∀ (next : Nat) (frame : Frame) (m : Machine),
      let outcome (op : FloatBinary) := step obs i code (.binary (.float f op)) next frame m
      let a := (frame.operand 1).bitsOf f.valType
      let b := frame.peek.bitsOf f.valType
      (∃ c, outcome .min = .goto next ((frame.drop 1).setTop c) m ∧
        c.bitsOf f.valType = F.min a b) ∧
      ∃ c, outcome .max = .goto next ((frame.drop 1).setTop c) m ∧
        c.bitsOf f.valType = F.max a b) ∧
    (F.Selects F.min min ∧ F.Selects F.max max ∧
      ∀ a b, a < 2 ^ F.width → b < 2 ^ F.width → F.datum a ≠ .nan → F.datum b ≠ .nan →
        F.rank a = F.rank b → a = b) ∧
    F.Semilattice F.min ∧ F.Semilattice F.max ∧
    ∀ a b, a < 2 ^ F.width → b < 2 ^ F.width → F.datum a ≠ .nan → F.datum b ≠ .nan →
      F.min a (F.max a b) = a ∧ F.max a (F.min a b) = a := by
  intro F
  have hmin : F.Selects F.min min := Format.min_selects f.two_le_exponentBits
  have hmax : F.Selects F.max max := Format.max_selects f.two_le_exponentBits
  refine ⟨fun next frame m => ?_, ⟨hmin, hmax, fun a b ha hb hna hnb h => ?_⟩,
    hmin.semilattice min_comm min_assoc, hmax.semilattice max_comm max_assoc,
    fun a b ha hb hna hnb => ⟨?_, ?_⟩⟩
  · have ha := Cell.bitsOf_lt f (frame.operand 1)
    have hb := Cell.bitsOf_lt f frame.peek
    exact ⟨⟨_, rfl, Cell.bitsOf_ofNat f (hmin.lt ha hb)⟩,
      ⟨_, rfl, Cell.bitsOf_ofNat f (hmax.lt ha hb)⟩⟩
  · exact Format.rank_injective f.two_le_exponentBits ha hb hna hnb h
  · exact hmin.absorbs hmax (fun r s => min_eq_left (le_max_left r s)) ha hb hna hnb
  · exact hmax.absorbs hmin (fun r s => max_eq_left (min_le_left r s)) ha hb hna hnb

/-- The zeros: the minimum is the negative one and the maximum the positive one, whichever comes
first, and each absorbs the other; a NaN with a payload gives the one without. -/
theorem zeros_have_extrema :
    let F := Format.binary32
    let frame : Frame := { slots := #[0, 0, 0x80000000], localCount := 0, top := 2 }
    let outcome (op : FloatBinary) := step {} 0 {} (.binary (.float .f32 op)) 1 frame {}
    (∃ c, outcome .min = .goto 1 ((frame.drop 1).setTop c) {} ∧ c.bitsOf .f32 = 0x80000000) ∧
      (∃ c, outcome .max = .goto 1 ((frame.drop 1).setTop c) {} ∧ c.bitsOf .f32 = 0) ∧
      F.min 0x80000000 0 = F.min 0 0x80000000 ∧
      F.min 0x80000000 (F.max 0x80000000 0) = 0x80000000 ∧
      F.datum 0x7f800001 = .nan ∧ F.min 0x7f800001 0 = 0x7fc00000 := by
  intro F frame outcome
  obtain ⟨hleft, ⟨hmin, -⟩, hlaws, -, habsorb⟩ := extrema_exact {} 0 {} .f32
  have hnan : F.datum 0x7f800001 = .nan := by decide +kernel
  have hzero : F.datum 0 ≠ .nan := by decide +kernel
  have hnegative : F.datum 0x80000000 ≠ .nan := by decide +kernel
  obtain ⟨⟨c, hc, hlower⟩, d, hd, hhigher⟩ := hleft 1 frame {}
  exact ⟨⟨c, hc, hlower.trans (by decide +kernel)⟩, ⟨d, hd, hhigher.trans (by decide +kernel)⟩,
    hlaws.comm (by decide) (by decide),
    (habsorb 0x80000000 0 (by decide) (by decide) hnegative hzero).1, hnan, hmin.nan (.inl hnan)⟩

end WasmEngine
