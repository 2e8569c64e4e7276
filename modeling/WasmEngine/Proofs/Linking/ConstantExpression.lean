import Mathlib.Data.List.Forall2
import WasmEngine.Linking.ConstantExpression

/-!
# The value of a constant expression

An expression has a value if, apart from any number of `end`, it is one constant or one read of an
imported global. Everything else is refused, for the first forbidden instruction if there is one,
else for the number of results, else for the type of the result.
-/
namespace WasmEngine
set_option autoImplicit false

namespace Instruction

/-- The instruction may stand in a constant expression: a constant, a read of an imported global or
`end`. -/
def isConstantIn (imported : List Global) : Instruction → Bool
  | .const _ _ | .end_ => true
  | .globalGet index => index < imported.length
  | _ => false

/-- The instruction pushes a value of the type and changes nothing else. -/
inductive Pushes (imported : List Global) : Instruction → ValType → Cell → Prop where
  | const (t : ValType) (c : Cell) : Pushes imported (.const t c) t c
  | globalGet {index : Nat} {g : Global} (h : imported[index]? = some g) :
    Pushes imported (.globalGet index) g.type.valType g.value

/-- The error that names an instruction which may not stand in a constant expression. -/
def refusal : Instruction → LinkError
  | .globalGet index => .globalNotImported index
  | instr => .notConstant instr.opcode

variable {imported : List Global} {instr : Instruction} {t t' : ValType} {c c' : Cell}

theorem Pushes.unique (h : instr.Pushes imported t c) (h' : instr.Pushes imported t' c') :
    t = t' ∧ c = c' := by
  cases h with
  | const =>
    cases h'
    exact ⟨rfl, rfl⟩
  | globalGet hg =>
    cases h' with
    | globalGet hg' =>
      obtain rfl := Option.some.inj (hg.symm.trans hg')
      exact ⟨rfl, rfl⟩

theorem Pushes.isConstantIn_eq (h : instr.Pushes imported t c) : instr.isConstantIn imported := by
  cases h with
  | const => rfl
  | globalGet hg => exact decide_eq_true (List.getElem?_eq_some_iff.mp hg).1

/-- What may stand in a constant expression pushes a value, unless it is `end`. -/
theorem exists_pushes (h : instr.isConstantIn imported) (hend : instr ≠ .end_) :
    ∃ t c, instr.Pushes imported t c := by
  cases instr with
  | const t c => exact ⟨t, c, .const t c⟩
  | globalGet index =>
    have hindex : index < imported.length := of_decide_eq_true h
    exact ⟨_, _, .globalGet (List.getElem?_eq_getElem hindex)⟩
  | end_ => exact absurd rfl hend
  | _ => cases h

end Instruction

namespace ConstantExpression

/-- The instructions that count: all but `end`. -/
def body (e : ConstantExpression) : List Instruction := e.filter (· ≠ .end_)

/-- The expression is one push of a value of the type, `end` apart. -/
def HasValue (imported : List Global) (t : ValType) (e : ConstantExpression) (c : Cell) : Prop :=
  ∃ instr, e.body = [instr] ∧ instr.Pushes imported t c

/-- What is wrong with an expression, the graver fault first: an instruction that may not stand in
it, of which the first counts; a number of results other than one; a result of another type. -/
inductive Refused (imported : List Global) (expected : ValType) :
    ConstantExpression → LinkError → Prop where
  | instruction {before after : List Instruction} {instr : Instruction}
      (hbefore : ∀ i ∈ before, i.isConstantIn imported) (hinstr : ¬ instr.isConstantIn imported) :
    Refused imported expected (before ++ instr :: after) instr.refusal
  | count {e : ConstantExpression} (hall : ∀ i ∈ e, i.isConstantIn imported)
      (hcount : e.body.length ≠ 1) : Refused imported expected e (.resultCount e.body.length)
  | type {e : ConstantExpression} {actual : ValType} {c : Cell} (h : e.HasValue imported actual c)
      (htype : actual ≠ expected) : Refused imported expected e (.resultType expected actual)

end ConstantExpression

section
variable {imported : List Global} {expected t : ValType} {e : ConstantExpression}
  {instr : Instruction} {c : Cell} {values : List (Cell × ValType)} {error : LinkError}

theorem constantValue?_of_pushes (h : instr.Pushes imported t c) :
    constantValue? imported instr = .ok (some (c, t)) := by
  cases h with
  | const => rfl
  | globalGet hg =>
    unfold constantValue?
    dsimp only
    rw [hg]

theorem constantValue?_of_not_isConstantIn (h : ¬ instr.isConstantIn imported) :
    constantValue? imported instr = .error instr.refusal := by
  cases instr with
  | const | end_ => exact absurd rfl h
  | globalGet index =>
    have hindex : imported[index]? = none :=
      List.getElem?_eq_none (Nat.not_lt.mp fun hlt => h (decide_eq_true hlt))
    unfold constantValue?
    dsimp only
    rw [hindex]
    rfl
  | _ => rfl

/-- The values of an expression without forbidden instructions are those that its body pushes. -/
theorem constantValues_of_isConstantIn (h : ∀ i ∈ e, i.isConstantIn imported) :
    ∃ values, constantValues imported e = .ok values ∧
      List.Forall₂ (fun i v => i.Pushes imported v.2 v.1) e.body values := by
  induction e with
  | nil => exact ⟨[], rfl, .nil⟩
  | cons instr rest ih =>
    obtain ⟨values, hvalues, hpushes⟩ := ih fun i hi => h i (.tail _ hi)
    rw [constantValues]
    by_cases hend : instr = .end_
    · subst hend
      refine ⟨values, ?_, hpushes⟩
      rw [hvalues]
      rfl
    · obtain ⟨t, c, hc⟩ := Instruction.exists_pushes (h instr (.head _)) hend
      have hbody : ConstantExpression.body (instr :: rest) =
          instr :: ConstantExpression.body rest := List.filter_cons_of_pos (decide_eq_true hend)
      refine ⟨(c, t) :: values, ?_, ?_⟩
      · rw [constantValue?_of_pushes hc, hvalues]
        rfl
      · rw [hbody]
        exact .cons hc hpushes

/-- The first forbidden instruction decides the error, whatever stands behind it. -/
theorem constantValues_of_not_isConstantIn {before after : List Instruction}
    (hbefore : ∀ i ∈ before, i.isConstantIn imported) (h : ¬ instr.isConstantIn imported) :
    constantValues imported (before ++ instr :: after) = .error instr.refusal := by
  induction before with
  | nil =>
    rw [List.nil_append, constantValues, constantValue?_of_not_isConstantIn h]
    rfl
  | cons first before ih =>
    have hfirst := hbefore first (.head _)
    rw [List.cons_append, constantValues, ih fun i hi => hbefore i (.tail _ hi)]
    by_cases hend : first = .end_
    · subst hend
      rfl
    · obtain ⟨t, c, hc⟩ := Instruction.exists_pushes hfirst hend
      rw [constantValue?_of_pushes hc]
      rfl

theorem evalConstant_of_one {actual : ValType} (h : constantValues imported e = .ok [(c, actual)]) :
    evalConstant imported expected e =
      if actual = expected then .ok c else .error (.resultType expected actual) := by
  unfold evalConstant
  rw [h]
  rfl

theorem evalConstant_of_not_one (h : constantValues imported e = .ok values)
    (hcount : values.length ≠ 1) :
    evalConstant imported expected e = .error (.resultCount values.length) := by
  unfold evalConstant
  rw [h]
  rcases values with _ | ⟨v, _ | ⟨w, rest⟩⟩
  · rfl
  · exact absurd rfl hcount
  · rfl

namespace ConstantExpression

/-- A body of one push leaves room for `end` only. -/
theorem HasValue.constantValues_eq (h : e.HasValue imported t c) :
    constantValues imported e = .ok [(c, t)] := by
  obtain ⟨instr, hbody, hpushes⟩ := h
  have hall : ∀ i ∈ e, i.isConstantIn imported := by
    intro i hi
    by_cases hend : i = .end_
    · subst hend
      rfl
    · have hmem : i ∈ e.body := List.mem_filter.mpr ⟨hi, decide_eq_true hend⟩
      obtain rfl := List.mem_singleton.mp (hbody ▸ hmem)
      exact hpushes.isConstantIn_eq
  obtain ⟨values, hvalues, hvs⟩ := constantValues_of_isConstantIn hall
  rw [hbody] at hvs
  obtain ⟨v, rest, hv, hrest, rfl⟩ := List.forall₂_cons_left_iff.mp hvs
  obtain rfl := List.forall₂_nil_left_iff.mp hrest
  obtain ⟨rfl, rfl⟩ := hpushes.unique hv
  exact hvalues

theorem HasValue.eval (h : e.HasValue imported expected c) :
    evalConstant imported expected e = .ok c := by
  rw [evalConstant_of_one h.constantValues_eq, if_pos rfl]

theorem Refused.eval (h : e.Refused imported expected error) :
    evalConstant imported expected e = .error error := by
  cases h with
  | instruction hbefore hinstr =>
    unfold evalConstant
    rw [constantValues_of_not_isConstantIn hbefore hinstr]
    rfl
  | count hall hcount =>
    obtain ⟨values, hvalues, hpushes⟩ := constantValues_of_isConstantIn hall
    rw [hpushes.length_eq] at hcount ⊢
    exact evalConstant_of_not_one hvalues hcount
  | type h htype => rw [evalConstant_of_one h.constantValues_eq, if_neg htype]

/-- There is no third kind of expression. -/
theorem hasValue_or_refused (imported : List Global) (expected : ValType) (e : ConstantExpression) :
    (∃ c, e.HasValue imported expected c) ∨ ∃ error, e.Refused imported expected error := by
  by_cases hall : ∀ i ∈ e, i.isConstantIn imported
  · obtain ⟨values, -, hpushes⟩ := constantValues_of_isConstantIn hall
    by_cases hcount : e.body.length = 1
    · obtain ⟨instr, hbody⟩ := List.length_eq_one_iff.mp hcount
      rw [hbody] at hpushes
      obtain ⟨⟨c, actual⟩, -, hc, -, -⟩ := List.forall₂_cons_left_iff.mp hpushes
      have hvalue : e.HasValue imported actual c := ⟨instr, hbody, hc⟩
      by_cases htype : actual = expected
      · exact .inl ⟨c, htype ▸ hvalue⟩
      · exact .inr ⟨_, .type hvalue htype⟩
    · exact .inr ⟨_, .count hall hcount⟩
  · obtain ⟨i, hi, hforbidden⟩ : ∃ i ∈ e, i.isConstantIn imported = false := by simpa using hall
    have hfound : (e.find? fun i => !i.isConstantIn imported).isSome :=
      List.find?_isSome.mpr ⟨i, hi, by rw [hforbidden]; rfl⟩
    obtain ⟨instr, hfind⟩ := Option.isSome_iff_exists.mp hfound
    obtain ⟨hinstr, before, after, rfl, hbefore⟩ := List.find?_eq_some_iff_append.mp hfind
    refine .inr ⟨_, .instruction (fun i hi => ?_) ?_⟩
    · simpa using hbefore i hi
    · simpa using hinstr

theorem Refused.code_eq (h : e.Refused imported expected error) :
    error.code = .globalInitializer := by
  cases h with
  | @instruction _ _ instr => cases instr <;> rfl
  | count => rfl
  | type => rfl

theorem eval_eq_ok_iff : evalConstant imported expected e = .ok c ↔
    e.HasValue imported expected c := by
  refine ⟨fun h => ?_, HasValue.eval⟩
  obtain ⟨c', hc'⟩ | ⟨error, herror⟩ := hasValue_or_refused imported expected e
  · obtain rfl := Except.ok.inj (hc'.eval.symm.trans h)
    exact hc'
  · cases herror.eval.symm.trans h

theorem eval_eq_error_iff : evalConstant imported expected e = .error error ↔
    e.Refused imported expected error := by
  refine ⟨fun h => ?_, Refused.eval⟩
  obtain ⟨c, hc⟩ | ⟨error', herror'⟩ := hasValue_or_refused imported expected e
  · cases hc.eval.symm.trans h
  · obtain rfl := Except.error.inj (herror'.eval.symm.trans h)
    exact herror'

end ConstantExpression

/-- A constant expression fails for reasons of its own. -/
theorem evalConstant_code (h : evalConstant imported expected e = .error error) :
    error.code = .globalInitializer :=
  (ConstantExpression.eval_eq_error_iff.mp h).code_eq

end

end WasmEngine
