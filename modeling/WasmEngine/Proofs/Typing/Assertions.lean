import WasmEngine.Proofs.Typing.Step

/-!
# What the interpreter takes for granted

The interpreter reads operands without looking whether they are there, takes the lower half of a
cell for a 32-bit value, and uses indices unchecked. `Instruction.Asserts` lists, for each
instruction, what has to hold for that to be right. It holds at every instruction of a typed body.
-/
namespace WasmEngine
set_option autoImplicit false

namespace Frame

/-- The operand `n` places below the topmost exists and is a 32-bit value: its upper half is zero. -/
def HasWord (f : Frame) (n : Nat) : Prop := n < f.height ∧ f.operand n >>> 32 = 0

/-- There is a slot for another operand. -/
def HasRoom (f : Frame) : Prop := f.top + 1 < f.slots.size

/-- A branch finds the operands it drops and the one it carries, and carries one at most. -/
def MayBranch (f : Frame) (arity : Nat) (target : BranchTarget) : Prop :=
  target.drop + arity ≤ f.height ∧ arity ≤ 1

/-- A function with these results may be left: it has one at most, and that is there. -/
def MayLeave (f : Frame) (outputs : List ValType) : Prop :=
  outputs.length ≤ 1 ∧ (outputs ≠ [] → 0 < f.height)

end Frame

/-- What the interpreter relies on when it runs the instruction before `next`, in a body that refers
to the scope `Γ`. -/
def Instruction.Asserts (Γ : Scope) (code : Code) (next : Nat) (f : Frame) : Instruction → Prop
  | .unreachable | .nop | .block | .loop | .else_ _ => True
  | .if_ _ => f.HasWord 0
  | .end_ => next = code.size → f.MayLeave Γ.outputs
  | .br target arity => f.MayBranch arity target
  | .brIf target arity => f.HasWord 0 ∧ (f.drop 1).MayBranch arity target
  | .brTable table arity =>
    table < code.branchTables.length ∧ code.branchTable table ≠ [] ∧ f.HasWord 0 ∧
      ∀ target ∈ code.branchTable table, (f.drop 1).MayBranch arity target
  | .return_ => f.MayLeave Γ.outputs
  | .call func => ∃ type, Γ.functions func = some type ∧ type.inputs.length ≤ f.height
  | .callIndirect k =>
    Γ.table = true ∧ f.HasWord 0 ∧
      ∃ type, Γ.types k = some type ∧ type.inputs.length ≤ (f.drop 1).height
  | .drop => 0 < f.height
  | .select => f.HasWord 0 ∧ 2 < f.height
  | .localGet index => index < f.localCount ∧ f.HasRoom
  | .localSet index | .localTee index => index < f.localCount ∧ 0 < f.height
  | .globalGet index => (Γ.globals index).isSome = true ∧ f.HasRoom
  | .globalSet index => (Γ.globals index).isSome = true ∧ 0 < f.height
  | .load _ _ => Γ.memory = true ∧ f.HasWord 0
  | .store _ _ => Γ.memory = true ∧ f.HasWord 1
  | .memorySize => Γ.memory = true ∧ f.HasRoom
  | .memoryGrow => Γ.memory = true ∧ f.HasWord 0
  | .const _ _ => f.HasRoom
  | .unary op => 0 < f.height ∧ (op.operandType = .i32 → f.HasWord 0)
  | .binary op => 1 < f.height ∧ (op.operandType = .i32 → f.HasWord 0 ∧ f.HasWord 1)
  | .probe _ => False

section
variable {Γ : Scope} {code : Code} {τ : Assignment} {types : List ValType} {next : Nat} {f : Frame}
  {l : Continuations}

theorem hasWord_of_types {maxHeight n : Nat} {locals : List ValType}
    (hf : f.HasTypes maxHeight locals types) (hn : types[n]? = some .i32) : f.HasWord n := by
  obtain ⟨hlt, -⟩ := List.getElem?_eq_some_iff.mp hn
  refine ⟨?_, (Cell.wellFormed_i32_iff _).mp (hf.operand hn)⟩
  rw [hf.height_eq]
  exact hlt

theorem hasRoom_of_typed (ht : code.Typed Γ τ) (hf : f.HasTypes code.maxHeight Γ.locals types)
    {t : ValType} (hn : τ next = some (t :: types)) : f.HasRoom :=
  hf.room (ht.height next _ hn)

theorem mayLeave_of_types (ho : Γ.outputs.length ≤ 1)
    (hf : f.HasTypes code.maxHeight Γ.locals types) (hp : Γ.outputs <+: types) :
    f.MayLeave Γ.outputs := by
  refine ⟨ho, fun hne => ?_⟩
  have hpos := List.length_pos_iff.mpr hne
  have hle := hp.length_le
  rw [hf.height_eq]
  omega

theorem mayBranch_of_typed {maxHeight arity : Nat} {locals : List ValType} {target : BranchTarget}
    {e : Nat × List ValType} (hf : f.HasTypes maxHeight locals types)
    (hb : branchTo types arity target = some e) (he : τ e.1 = some e.2) :
    f.MayBranch arity target := by
  obtain ⟨_, _, _, hd⟩ := branchTo_typed hb he hf
  exact hd

theorem pos_height {maxHeight : Nat} {locals rest : List ValType} {t : ValType}
    (hf : f.HasTypes maxHeight locals (t :: rest)) : 0 < f.height := by
  rw [hf.height_eq]
  exact Nat.zero_lt_succ _

theorem localIndex_lt {maxHeight index : Nat} {locals : List ValType} {t : ValType}
    (hf : f.HasTypes maxHeight locals types) (hi : locals[index]? = some t) :
    index < f.localCount := by
  rw [hf.localCount_eq]
  exact (List.getElem?_eq_some_iff.mp hi).1

/-- At every instruction of a typed body holds what the interpreter relies on. -/
theorem asserts_of_typed (ht : code.Typed Γ τ) (ho : Γ.outputs.length ≤ 1) {instr : Instruction}
    (hf : f.HasTypes code.maxHeight Γ.locals types)
    (hc : continuations Γ code next types instr = some l) (hl : ∀ e ∈ l, τ e.1 = some e.2) :
    instr.Asserts Γ code next f := by
  cases instr with
  | unreachable | nop | block | loop | else_ resume => trivial
  | if_ otherwise =>
    obtain ⟨rest, hr, -⟩ := Option.map_eq_some_iff.mp hc
    obtain rfl := consume_eq_some hr
    exact hasWord_of_types hf rfl
  | end_ =>
    intro hend
    simp only [continuations, if_pos hend] at hc
    exact mayLeave_of_types ho hf (mayLeave_typed hc)
  | br target arity =>
    obtain ⟨e, he, rfl⟩ := Option.map_eq_some_iff.mp hc
    exact mayBranch_of_typed hf he (hl e (by simp))
  | brIf target arity =>
    obtain ⟨rest, hr, hc⟩ := Option.bind_eq_some_iff.mp hc
    obtain rfl := consume_eq_some hr
    obtain ⟨e, he, rfl⟩ := Option.map_eq_some_iff.mp hc
    exact ⟨hasWord_of_types hf rfl, mayBranch_of_typed hf.pop he (hl e (by simp))⟩
  | brTable table arity =>
    simp only [continuations, Option.ite_none_left_eq_some] at hc
    obtain ⟨hne, hc⟩ := hc
    obtain ⟨rest, hr, hc⟩ := Option.bind_eq_some_iff.mp hc
    obtain rfl := consume_eq_some hr
    refine ⟨?_, hne, hasWord_of_types hf rfl, fun target htarget => ?_⟩
    · -- A table that does not exist counts as empty.
      by_contra hlt
      rw [Code.branchTable, List.getD_eq_getElem?_getD, List.getElem?_eq_none (by omega)] at hne
      exact hne rfl
    · obtain ⟨e, he, hτ⟩ := mapM_branchTo_typed hc hl htarget
      exact mayBranch_of_typed hf.pop he hτ
  | return_ => exact mayLeave_of_types ho hf (mayLeave_typed hc)
  | call func =>
    obtain ⟨type, hfunc, hc⟩ := Option.bind_eq_some_iff.mp hc
    obtain ⟨rest, rfl, -⟩ := proceed_typed hc hl
    refine ⟨type, hfunc, ?_⟩
    rw [hf.height_eq, List.nil_append, List.length_append, List.length_reverse]
    omega
  | callIndirect k =>
    simp only [continuations, Option.ite_none_right_eq_some] at hc
    obtain ⟨type, hk, hc'⟩ := Option.bind_eq_some_iff.mp hc.2
    obtain ⟨rest, rfl, -⟩ := proceed_typed hc' hl
    refine ⟨hc.1, hasWord_of_types hf rfl, type, hk, ?_⟩
    have hd : (f.drop 1).HasTypes code.maxHeight Γ.locals (type.inputs.reverse ++ rest) := hf.pop
    rw [hd.height_eq, List.length_append, List.length_reverse]
    omega
  | drop =>
    obtain ⟨t, -, hc⟩ := Option.bind_eq_some_iff.mp hc
    obtain ⟨rest, rfl, -⟩ := proceed_typed hc hl
    exact pos_height hf
  | select =>
    obtain ⟨t, -, hc⟩ := Option.bind_eq_some_iff.mp hc
    obtain ⟨rest, rfl, -⟩ := proceed_typed hc hl
    refine ⟨hasWord_of_types hf rfl, ?_⟩
    rw [hf.height_eq]
    exact Nat.succ_lt_succ (Nat.succ_lt_succ (Nat.zero_lt_succ _))
  | localGet index =>
    obtain ⟨t, hi, hc⟩ := Option.bind_eq_some_iff.mp hc
    obtain ⟨rest, rfl, hn⟩ := proceed_typed hc hl
    exact ⟨localIndex_lt hf hi, hasRoom_of_typed ht hf hn⟩
  | localSet index | localTee index =>
    obtain ⟨t, hi, hc⟩ := Option.bind_eq_some_iff.mp hc
    obtain ⟨rest, rfl, -⟩ := proceed_typed hc hl
    exact ⟨localIndex_lt hf hi, pos_height hf⟩
  | globalGet index =>
    obtain ⟨t, hi, hc⟩ := Option.bind_eq_some_iff.mp hc
    obtain ⟨rest, rfl, hn⟩ := proceed_typed hc hl
    exact ⟨Option.isSome_of_eq_some hi, hasRoom_of_typed ht hf hn⟩
  | globalSet index =>
    obtain ⟨t, hi, hc⟩ := Option.bind_eq_some_iff.mp hc
    obtain ⟨rest, rfl, -⟩ := proceed_typed hc hl
    exact ⟨Option.isSome_of_eq_some hi, pos_height hf⟩
  | load op offset | memoryGrow =>
    simp only [continuations, Option.ite_none_right_eq_some] at hc
    obtain ⟨rest, rfl, -⟩ := proceed_typed hc.2 hl
    exact ⟨hc.1, hasWord_of_types hf rfl⟩
  | store op offset =>
    simp only [continuations, Option.ite_none_right_eq_some] at hc
    obtain ⟨rest, rfl, -⟩ := proceed_typed hc.2 hl
    exact ⟨hc.1, hasWord_of_types hf rfl⟩
  | memorySize =>
    simp only [continuations, Option.ite_none_right_eq_some] at hc
    obtain ⟨rest, rfl, hn⟩ := proceed_typed hc.2 hl
    exact ⟨hc.1, hasRoom_of_typed ht hf hn⟩
  | const t value =>
    simp only [continuations, Option.ite_none_right_eq_some] at hc
    obtain ⟨rest, rfl, hn⟩ := proceed_typed hc.2 hl
    exact hasRoom_of_typed ht hf hn
  | unary op =>
    obtain ⟨rest, rfl, -⟩ := proceed_typed hc hl
    refine ⟨pos_height hf, fun hi => hasWord_of_types hf ?_⟩
    rw [hi]
    rfl
  | binary op =>
    obtain ⟨rest, rfl, -⟩ := proceed_typed hc hl
    refine ⟨?_, fun hi => ?_⟩
    · rw [hf.height_eq]
      exact Nat.succ_lt_succ (Nat.zero_lt_succ _)
    · rw [hi] at hf
      exact ⟨hasWord_of_types hf rfl, hasWord_of_types hf rfl⟩
  | probe index => cases hc

end

end WasmEngine
