import WasmEngine.Code
import WasmEngine.Proofs.Typing.Frame

/-!
# Typing rules

The types of the operands before and after every instruction. An assignment gives to an offset of a
body the types of the operands there, the topmost first; a body is typed by an assignment when every
instruction takes the operands at its offset to those at each offset where it may go on.
-/
namespace WasmEngine
set_option autoImplicit false

/-- The index spaces of an instance, by type. -/
structure Outline where
  functions : Nat → Option FuncType
  globals : Nat → Option ValType
  types : Nat → Option FuncType
  memory : Bool
  table : Bool

/-- What a body refers to: the index spaces, its locals with the parameters first, and the types of
its results. -/
structure Scope extends Outline where
  locals : List ValType
  outputs : List ValType

/-- The scope of a body of a function of the type. -/
def Outline.scope (o : Outline) (type : FuncType) (code : Code) : Scope :=
  { o with
    locals := type.inputs ++ code.locals
    outputs := type.outputs }

/-- The operands below those that are taken, if they have the expected types. -/
def consume : List ValType → List ValType → Option (List ValType)
  | [], types => some types
  | _ :: _, [] => none
  | t :: rest, u :: types => if t = u then consume rest types else none

/-- Where an instruction may go on, and the types of the operands there. -/
abbrev Continuations := List (Nat × List ValType)

/-- An instruction that goes on after it has replaced operands. -/
def proceed (next : Nat) (takes gives types : List ValType) : Option Continuations :=
  (consume takes types).map fun rest => [(next, gives ++ rest)]

/-- The operands after a branch: `drop` of them are removed below the carried one, if there is
one. -/
def unwindTypes (types : List ValType) (drop : Nat) : Nat → Option (List ValType)
  | 0 => if drop ≤ types.length then some (types.drop drop) else none
  | 1 => match types with
    | [] => none
    | t :: rest => if drop ≤ rest.length then some (t :: rest.drop drop) else none
  | _ => none

def branchTo (types : List ValType) (arity : Nat) (target : BranchTarget) :
    Option (Nat × List ValType) :=
  (unwindTypes types target.drop arity).map fun rest => (target.offset, rest)

/-- A function may be left: its result, if it has one, is on top. -/
def Scope.mayLeave (Γ : Scope) (types : List ValType) : Option Continuations :=
  if Γ.outputs.isPrefixOf types then some [] else none

def callTypes (next : Nat) (taken : List ValType) (type : FuncType) (types : List ValType) :
    Option Continuations :=
  proceed next (taken ++ type.inputs.reverse) type.outputs.reverse types

/-- Where the instruction before `next` may go on with operands of the given types; none if it does
not apply to them. -/
def continuations (Γ : Scope) (code : Code) (next : Nat) (types : List ValType) :
    Instruction → Option Continuations
  | .unreachable => some []
  | .nop | .block | .loop => proceed next [] [] types
  | .if_ otherwise => (consume [.i32] types).map fun rest => [(next, rest), (otherwise, rest)]
  | .else_ resume => proceed resume [] [] types
  | .end_ => if next = code.size then Γ.mayLeave types else proceed next [] [] types
  | .br target arity => (branchTo types arity target).map fun e => [e]
  | .brIf target arity =>
    (consume [.i32] types).bind fun rest =>
      (branchTo rest arity target).map fun e => [(next, rest), e]
  | .brTable table arity =>
    if code.branchTable table = [] then none
    else (consume [.i32] types).bind fun rest => (code.branchTable table).mapM (branchTo rest arity)
  | .return_ => Γ.mayLeave types
  | .call func => (Γ.functions func).bind fun type => callTypes next [] type types
  | .callIndirect type =>
    if Γ.table then (Γ.types type).bind fun type => callTypes next [.i32] type types else none
  | .drop => types.head?.bind fun t => proceed next [t] [] types
  | .select => (types[1]?).bind fun t => proceed next [.i32, t, t] [t] types
  | .localGet index => (Γ.locals[index]?).bind fun t => proceed next [] [t] types
  | .localSet index => (Γ.locals[index]?).bind fun t => proceed next [t] [] types
  | .localTee index => (Γ.locals[index]?).bind fun t => proceed next [t] [t] types
  | .globalGet index => (Γ.globals index).bind fun t => proceed next [] [t] types
  | .globalSet index => (Γ.globals index).bind fun t => proceed next [t] [] types
  | .load op _ => if Γ.memory then proceed next [.i32] [op.resultType] types else none
  | .store op _ => if Γ.memory then proceed next [op.operandType, .i32] [] types else none
  | .memorySize => if Γ.memory then proceed next [] [.i32] types else none
  | .memoryGrow => if Γ.memory then proceed next [.i32] [.i32] types else none
  | .const t value => if value.wellFormed t then proceed next [] [t] types else none
  | .unary op => proceed next [op.operandType] [op.resultType] types
  | .binary op => proceed next [op.operandType, op.operandType] [op.resultType] types
  | .probe _ => none

/-- The operand types at the offsets of a body; none at an offset that is never reached. -/
abbrev Assignment := Nat → Option (List ValType)

/-- The body is typed by the assignment. -/
structure Code.Typed (code : Code) (Γ : Scope) (τ : Assignment) : Prop where
  entry : τ 0 = some []
  inside : ∀ pc types, τ pc = some types → pc < code.size
  height : ∀ pc types, τ pc = some types → types.length ≤ code.maxHeight
  flow : ∀ pc types instr, τ pc = some types → code.instructions[pc]? = some instr →
    ∃ l, continuations Γ code (pc + 1) types instr = some l ∧ ∀ e ∈ l, τ e.1 = some e.2
  last : code.instructions.back? = some .end_

theorem consume_eq_some {taken types rest : List ValType} (h : consume taken types = some rest) :
    types = taken ++ rest := by
  induction taken generalizing types with
  | nil => exact Option.some.inj h
  | cons t taken ih =>
    cases types with
    | nil => cases h
    | cons u types =>
      rw [consume] at h
      split at h
      · rename_i htu
        rw [ih h, htu]
        rfl
      · cases h

section
variable {τ : Assignment} {next : Nat} {types : List ValType} {l : Continuations}

/-- What the rule of an instruction that replaces operands says of a typed body. -/
theorem proceed_typed {takes gives : List ValType} (h : proceed next takes gives types = some l)
    (hl : ∀ e ∈ l, τ e.1 = some e.2) :
    ∃ rest, types = takes ++ rest ∧ τ next = some (gives ++ rest) := by
  obtain ⟨rest, hc, rfl⟩ := Option.map_eq_some_iff.mp h
  exact ⟨rest, consume_eq_some hc, hl _ (List.mem_singleton_self _)⟩

/-- A branch target of a typed body, and what the frame looks like there. -/
theorem branchTo_typed {target : BranchTarget} {arity : Nat} {e : Nat × List ValType}
    (h : branchTo types arity target = some e) (he : τ e.1 = some e.2) {f : Frame}
    {maxHeight : Nat} {locals : List ValType} (hf : f.HasTypes maxHeight locals types) :
    ∃ rest, τ target.offset = some rest ∧
      (f.unwind target.drop arity).HasTypes maxHeight locals rest ∧
      target.drop + arity ≤ f.height ∧ arity ≤ 1 := by
  obtain ⟨rest, hu, rfl⟩ := Option.map_eq_some_iff.mp h
  refine ⟨rest, he, ?_⟩
  rw [hf.height_eq]
  match arity, hu with
  | 0, hu =>
    simp only [unwindTypes, Option.ite_none_right_eq_some, Option.some.injEq] at hu
    obtain ⟨hd, rfl⟩ := hu
    exact ⟨hf.unwind_zero hd, hd, Nat.zero_le 1⟩
  | 1, hu =>
    cases types with
    | nil => cases hu
    | cons t below =>
      simp only [unwindTypes, Option.ite_none_right_eq_some, Option.some.injEq] at hu
      obtain ⟨hd, rfl⟩ := hu
      exact ⟨hf.unwind_one hd, Nat.succ_le_succ hd, Nat.le_refl 1⟩
  | arity + 2, hu => cases hu

/-- All targets of a branch table of a typed body are branch targets. -/
theorem mapM_branchTo_typed {targets : List BranchTarget} {arity : Nat}
    (h : targets.mapM (branchTo types arity) = some l) (hl : ∀ e ∈ l, τ e.1 = some e.2)
    {target : BranchTarget} (ht : target ∈ targets) :
    ∃ e, branchTo types arity target = some e ∧ τ e.1 = some e.2 := by
  induction targets generalizing l with
  | nil => cases ht
  | cons first rest ih =>
    rw [List.mapM_cons, Option.bind_eq_bind, Option.bind_eq_some_iff] at h
    obtain ⟨e, he, h⟩ := h
    rw [Option.bind_eq_bind, Option.bind_eq_some_iff] at h
    obtain ⟨es, hes, h⟩ := h
    obtain rfl := Option.some.inj h
    rcases List.mem_cons.mp ht with rfl | ht
    · exact ⟨e, he, hl e List.mem_cons_self⟩
    · exact ih hes (fun e' he' => hl e' (List.mem_cons_of_mem e he')) ht

end

/-- The assignment that a table lists, offset by offset. -/
def Assignment.ofTable (table : List (Option (List ValType))) : Assignment :=
  fun pc => (table[pc]?).join

/-- The rule of the instruction at an offset holds for the assignment. -/
def Code.checkAt (code : Code) (Γ : Scope) (τ : Assignment) (pc : Nat) : Bool :=
  match τ pc with
  | none => true
  | some types =>
    decide (types.length ≤ code.maxHeight) &&
      (code.instructions[pc]?).any fun instr =>
        (continuations Γ code (pc + 1) types instr).any (·.all fun e => τ e.1 == some e.2)

/-- Decides whether a body is typed by the assignment that a table lists. -/
def Code.check (code : Code) (Γ : Scope) (table : List (Option (List ValType))) : Bool :=
  table.head? == some (some []) && code.instructions.back? == some .end_ &&
    (List.range table.length).all (code.checkAt Γ (.ofTable table))

theorem Code.typed_of_check {code : Code} {Γ : Scope} {table : List (Option (List ValType))}
    (h : code.check Γ table = true) : code.Typed Γ (.ofTable table) := by
  simp only [Code.check, Bool.and_eq_true, beq_iff_eq, List.all_eq_true, List.mem_range] at h
  obtain ⟨⟨hentry, hlast⟩, hall⟩ := h
  -- Only offsets of the table are assigned, and all of those are checked.
  have hat : ∀ pc types, Assignment.ofTable table pc = some types →
      types.length ≤ code.maxHeight ∧ ∃ instr, code.instructions[pc]? = some instr ∧
        ∃ l, continuations Γ code (pc + 1) types instr = some l ∧
          ∀ e ∈ l, Assignment.ofTable table e.1 = some e.2 := by
    intro pc types hpc
    obtain ⟨hlt, -⟩ := List.getElem?_eq_some_iff.mp (Option.join_eq_some_iff.mp hpc)
    have hc := hall pc hlt
    rw [Code.checkAt, hpc] at hc
    simpa only [Bool.and_eq_true, decide_eq_true_eq, Option.any_eq_true, List.all_eq_true,
      beq_iff_eq] using hc
  refine ⟨?_, ?_, fun pc types hpc => (hat pc types hpc).1, ?_, hlast⟩
  · rw [List.head?_eq_getElem?] at hentry
    rw [Assignment.ofTable, hentry]
    rfl
  · intro pc types hpc
    obtain ⟨-, instr, hinstr, -⟩ := hat pc types hpc
    exact (Array.getElem?_eq_some_iff.mp hinstr).1
  · intro pc types instr hpc hinstr
    obtain ⟨-, instr', hinstr', hflow⟩ := hat pc types hpc
    rw [hinstr, Option.some.injEq] at hinstr'
    rw [hinstr']
    exact hflow

end WasmEngine
