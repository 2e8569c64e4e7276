import WasmEngine.Proofs.ControlFlow.Blocks
import WasmEngine.Proofs.Execution.Observation
import WasmEngine.Proofs.Instrumentation.Wrapping

/-!
# Where instructions go on

The interpreter moves from offset to offset as `Code.follow` says; the graph leads from block to
block as `Code.exits` says. The two are compared instruction by instruction, and a move of the
interpreter is a step inside a block or an edge of the graph.
-/
namespace WasmEngine
set_option autoImplicit false

/-- The instruction takes a condition or a selector from the top of the operands. -/
def Instruction.selects : Instruction → Bool
  | .if_ _ | .brIf _ _ | .brTable _ _ => true
  | _ => false

namespace Code

variable (code : Code)

/-- Where the instruction before `next` goes on with `c` on top, unless it traps; none where it
leaves the function. -/
def follow (next : Nat) (c : Cell) : Instruction → Option Nat
  | .unreachable | .return_ => none
  | .if_ otherwise => some (if c.isTrue then next else otherwise)
  | .else_ resume => some resume
  | .end_ => if next = code.size then none else some next
  | .br target _ => some target.offset
  | .brIf target _ => some (if c.isTrue then target.offset else next)
  | .brTable table _ => (selectTarget (code.branchTable table) c.index).map (·.offset)
  | _ => some next

/-- The offsets to which the instruction before `next` may lead. -/
def exits (next : Nat) : Instruction → List Nat
  | .unreachable | .return_ => []
  | .if_ otherwise => [next, otherwise]
  | .else_ resume => [resume]
  | .end_ => if next = code.size then [] else [next]
  | .br target _ => [target.offset]
  | .brIf target _ => [target.offset, next]
  | .brTable table _ => (code.branchTable table).map (·.offset)
  | _ => [next]

variable {code}

theorem selectTarget_of_lt {targets : List BranchTarget} {i : Nat} (hi : i < targets.length) :
    selectTarget targets i = targets[i]? := by
  unfold selectTarget
  split
  · rfl
  · rw [List.getLast?_eq_getElem?, show targets.length - 1 = i by omega]

theorem exists_selectTarget {targets : List BranchTarget} (hne : targets ≠ []) (selector : Nat) :
    ∃ target ∈ targets, selectTarget targets selector = some target := by
  unfold selectTarget
  split
  · rename_i hlt
    have hb : selector < targets.length := by omega
    exact ⟨targets[selector], List.getElem_mem hb, List.getElem?_eq_getElem hb⟩
  · exact ⟨targets.getLast hne, List.getLast_mem hne, List.getLast?_eq_some_getLast hne⟩

/-- The interpreter only goes where the graph leads. -/
theorem follow_mem_exits {next : Nat} {c : Cell} {instr : Instruction} {o : Nat}
    (h : code.follow next c instr = some o) : o ∈ code.exits next instr := by
  cases instr with
  | unreachable | return_ => cases h
  | if_ otherwise =>
    obtain rfl := Option.some.inj h
    simp only [exits]
    split <;> simp
  | brIf target arity =>
    obtain rfl := Option.some.inj h
    simp only [exits]
    split <;> simp
  | end_ =>
    simp only [follow] at h
    simp only [exits]
    split
    · rename_i hend
      rw [if_pos hend] at h
      cases h
    · rename_i hend
      rw [if_neg hend] at h
      exact List.mem_singleton.mpr (Option.some.inj h).symm
  | brTable table arity =>
    obtain ⟨target, ht, rfl⟩ := Option.map_eq_some_iff.mp h
    refine List.mem_map.mpr ⟨target, ?_, rfl⟩
    unfold selectTarget at ht
    split at ht
    · exact List.mem_of_getElem? ht
    · exact List.mem_of_getLast? ht
  | _ =>
    obtain rfl := Option.some.inj h
    exact List.mem_singleton_self _

/-- Wherever the graph leads, some condition or selector takes the interpreter there. Where the
instruction needs none, it goes there with every operand. -/
theorem exists_follow_of_mem_exits {next : Nat} {instr : Instruction} {o : Nat}
    (hlen : ∀ table arity, instr = .brTable table arity →
      (code.branchTable table).length < 4294967296)
    (h : o ∈ code.exits next instr) :
    ∃ c : Cell, c.wellFormed .i32 = true ∧
      ∀ d, (instr.selects = true → d = c) → code.follow next d instr = some o := by
  have htrue : Cell.isTrue 1 = true := by decide
  have hfalse : Cell.isTrue 0 = false := by decide
  cases instr with
  | unreachable | return_ => cases h
  | if_ otherwise =>
    simp only [exits, List.mem_cons, List.not_mem_nil, or_false] at h
    rcases h with rfl | rfl
    · refine ⟨1, by decide, fun d hd => ?_⟩
      rw [hd rfl, follow, htrue, if_pos rfl]
    · refine ⟨0, by decide, fun d hd => ?_⟩
      rw [hd rfl, follow, hfalse]
      rfl
  | brIf target arity =>
    simp only [exits, List.mem_cons, List.not_mem_nil, or_false] at h
    rcases h with rfl | rfl
    · refine ⟨1, by decide, fun d hd => ?_⟩
      rw [hd rfl, follow, htrue, if_pos rfl]
    · refine ⟨0, by decide, fun d hd => ?_⟩
      rw [hd rfl, follow, hfalse]
      rfl
  | end_ =>
    simp only [exits] at h
    split at h
    · cases h
    · rename_i hend
      refine ⟨0, by decide, fun d _ => ?_⟩
      rw [follow, if_neg hend, List.mem_singleton.mp h]
  | brTable table arity =>
    -- The selector of a target is its place in the table.
    obtain ⟨target, ht, rfl⟩ := List.mem_map.mp h
    obtain ⟨i, hi⟩ := List.getElem?_of_mem ht
    obtain ⟨hlt, -⟩ := List.getElem?_eq_some_iff.mp hi
    have hbound := hlen table arity rfl
    have hindex : Cell.index (BitVec.ofNat 64 i) = i := by
      simp only [Cell.index, Cell.low, BitVec.toNat_setWidth, BitVec.toNat_ofNat]
      omega
    refine ⟨BitVec.ofNat 64 i, ?_, fun d hd => ?_⟩
    · rw [Cell.wellFormed, decide_eq_true_iff, BitVec.toNat_ofNat]
      omega
    · rw [hd rfl, follow, hindex, selectTarget_of_lt hlt, hi]
      rfl
  | _ =>
    refine ⟨0, by decide, fun d _ => ?_⟩
    rw [List.mem_singleton.mp h]
    rfl

/-- The graph leads nowhere exactly where the function is left or trapped for sure. -/
theorem exits_eq_nil_iff {next : Nat} {instr : Instruction}
    (hne : ∀ table arity, instr = .brTable table arity → code.branchTable table ≠ []) :
    code.exits next instr = [] ↔
      instr = .return_ ∨ instr = .unreachable ∨ instr = .end_ ∧ next = code.size := by
  cases instr with
  | end_ => simp [exits]
  | brTable table arity => simp [exits, hne table arity rfl]
  | _ => simp [exits]

section
variable {k start : Nat} {instr : Instruction}

theorem exists_lastInstruction (hk : code.blockStarts[k]? = some start) :
    ∃ instr, code.instructions[code.blockStop k - 1]? = some instr := by
  have hlt := start_lt_blockStop hk
  have hle : code.blockStop k ≤ code.instructions.size := blockStop_le k
  exact ⟨_, Array.getElem?_eq_getElem (by omega)⟩

/-- Only an end stands at the end of the body. -/
theorem WellFormed.eq_end (hw : code.WellFormed) {o : Nat}
    (hi : code.instructions[o]? = some instr) (ho : o + 1 = code.size) : instr = .end_ := by
  have hlast := hw.last
  rw [Array.back?_eq_getElem?, show code.instructions.size - 1 = o by
    have hs : code.instructions.size = code.size := rfl
    omega, hi] at hlast
  exact Option.some.inj hlast

/-- Another block begins where a block stops, unless that is the end of the body. -/
theorem blockStop_mem (h : code.blockStop k < code.size) :
    code.blockStarts[k + 1]? = some (code.blockStop k) := by
  unfold blockStop at h ⊢
  cases hs : code.blockStarts[k + 1]? with
  | none => simp [hs] at h
  | some stop => rfl

theorem blockOf_blockStop (h : code.blockStop k < code.size) :
    code.blockOf (code.blockStop k) = k + 1 :=
  blockOf_eq (blockStop_mem h) (Nat.le_refl _) (start_lt_blockStop (blockStop_mem h))

theorem target_mem_blockStarts (hw : code.WellFormed) {o target : Nat}
    (hi : code.instructions[o]? = some instr) (ht : target ∈ code.targets instr) :
    target ∈ code.blockStarts :=
  code.mem_blockStarts.mpr ⟨hw.targets instr (Array.mem_of_getElem? hi) target ht,
    code.mem_leaders.mpr (.inr ⟨o, instr, hi, .inl ht⟩)⟩

/-- An offset to which an instruction may lead is a branch target or the next offset; the next one
is never past the end of the body. -/
theorem mem_exits (hw : code.WellFormed) {o o' : Nat} (hi : code.instructions[o]? = some instr)
    (h : o' ∈ code.exits (o + 1) instr) :
    o' ∈ code.targets instr ∨ o' = o + 1 ∧ o + 1 < code.size := by
  have hlt : o < code.size := (Array.getElem?_eq_some_iff.mp hi).1
  have hnext : instr ≠ .end_ → o + 1 < code.size := fun hne =>
    Nat.lt_of_le_of_ne hlt fun he => hne (hw.eq_end hi he)
  cases instr with
  | unreachable | return_ => cases h
  | if_ otherwise | brIf target arity =>
    have hn := hnext (by simp)
    simp only [exits, List.mem_cons, List.not_mem_nil, or_false] at h
    rcases h with rfl | rfl <;> simp [targets, hn]
  | else_ resume | br target arity => exact .inl h
  | brTable table arity => exact .inl h
  | end_ =>
    simp only [exits] at h
    split at h
    · cases h
    · exact .inr ⟨List.mem_singleton.mp h, by omega⟩
  | _ => exact .inr ⟨List.mem_singleton.mp h, hnext (by simp)⟩

/-- The last instruction of a block leads to begins of blocks. -/
theorem exits_subset_blockStarts (hw : code.WellFormed) (hk : code.blockStarts[k]? = some start)
    (hi : code.instructions[code.blockStop k - 1]? = some instr) {o : Nat}
    (h : o ∈ code.exits (code.blockStop k) instr) : o ∈ code.blockStarts := by
  have hlt := start_lt_blockStop hk
  have hs : code.blockStop k - 1 + 1 = code.blockStop k := by omega
  rw [← hs] at h
  rcases mem_exits hw hi h with ht | ⟨rfl, hsize⟩
  · exact target_mem_blockStarts hw hi ht
  · rw [hs] at hsize ⊢
    exact List.mem_of_getElem? (blockStop_mem hsize)

/-- The successors of a block are the blocks to which its last instruction leads, in this order. -/
theorem successors_eq_exits (hw : code.WellFormed) (hk : code.blockStarts[k]? = some start)
    (hi : code.instructions[code.blockStop k - 1]? = some instr) :
    (Graph.build code).successors k = (code.exits (code.blockStop k) instr).map code.blockOf := by
  have hlt := start_lt_blockStop hk
  have hle := code.blockStop_le k
  have hs : code.blockStop k - 1 + 1 = code.blockStop k := by omega
  have hnext : instr ≠ .end_ → code.blockOf (code.blockStop k) = k + 1 := fun hne =>
    blockOf_blockStop (Nat.lt_of_le_of_ne hle fun he => hne (hw.eq_end hi (hs.trans he)))
  have hsize : instr ≠ .end_ → code.blockStop k < code.size := fun hne =>
    Nat.lt_of_le_of_ne hle fun he => hne (hw.eq_end hi (hs.trans he))
  rw [Graph.successors_eq hk, Graph.jumpOf, hi]
  cases instr with
  | unreachable | return_ => rfl
  | if_ otherwise | brIf target arity =>
    simp only [exits, List.map_cons, List.map_nil, hnext (by simp)]
    rfl
  | else_ resume | br target arity => rfl
  | brTable table arity =>
    -- The cases and the default are the targets of the table.
    have hne : (code.branchTable table).map (fun t => Graph.indexOf code.blockStarts t.offset) ≠ [] := by
      simpa using (hw.tables table arity (Array.mem_of_getElem? hi)).1
    simp only [List.getLast?_eq_some_getLast hne, Option.map_some, Option.getD_some, Jump.targets,
      List.dropLast_concat_getLast, exits, List.map_map, Function.comp_def, blockOf]
  | end_ =>
    dsimp only
    by_cases hend : code.blockStop k < code.size
    · rw [if_pos hend, exits, if_neg (Nat.ne_of_lt hend), List.map_singleton,
        blockOf_blockStop hend]
      rfl
    · rw [if_neg hend, exits, if_pos (by omega)]
      rfl
  | _ =>
    dsimp only
    rw [if_pos (hsize (by simp)), exits, List.map_singleton, hnext (by simp)]
    · rfl
    all_goals simp

end

end Code

/-- A move allowed by a graph: to the next offset inside a block, or from the last offset of a block
to the begin of one of its successors. -/
def Graph.Flows (g : Graph) (o o' : Nat) : Prop :=
  (o' = o + 1 ∧ ∃ b ∈ g.blocks, b.start ≤ o ∧ o' < b.stop) ∨
    ∃ b ∈ g.blocks, ∃ b' ∈ g.blocks,
      b.start ≤ o ∧ o + 1 = b.stop ∧ o' = b'.start ∧ b'.id ∈ g.successors b.id

section
variable {code : Code}

/-- Inside a block the interpreter goes to the next offset. -/
theorem follow_inside {k start o : Nat} (hk : code.blockStarts[k]? = some start) (hlo : start ≤ o)
    (hhi : o + 1 < code.blockStop k) {instr : Instruction}
    (hi : code.instructions[o]? = some instr) (c : Cell) :
    code.follow (o + 1) c instr = some (o + 1) := by
  have hsize := code.blockStop_le k
  -- A control transfer would begin a block at the next offset.
  have htransfer : instr.transfersControl = false := by
    rw [← Bool.not_eq_true]
    intro ht
    refine absurd (code.mem_blockStarts.mpr ⟨by omega, ?_⟩)
      (Code.not_mem_blockStarts hk (by omega) hhi)
    exact code.mem_leaders.mpr (.inr ⟨o, instr, hi, .inr ⟨ht, rfl⟩⟩)
  cases instr with
  | unreachable | if_ _ | else_ _ | br _ _ | brIf _ _ | brTable _ _ | return_ => cases htransfer
  | end_ => rw [Code.follow, if_neg (by omega)]
  | _ => rfl

/-- Every move of the interpreter is allowed by the graph. -/
theorem follow_flows (hw : code.WellFormed) {o o' : Nat} {instr : Instruction}
    (hi : code.instructions[o]? = some instr) {c : Cell}
    (h : code.follow (o + 1) c instr = some o') : (Graph.build code).Flows o o' := by
  obtain ⟨start, hk, hlo, hhi⟩ := Code.blockOf_spec (Array.getElem?_eq_some_iff.mp hi).1
  obtain ⟨b, hb, hid, hbs, hbe⟩ := Graph.exists_block hk
  rcases Nat.lt_or_eq_of_le (Nat.succ_le_of_lt hhi) with hin | hlast
  · rw [follow_inside hk hlo hin hi, Option.some.injEq] at h
    subst h
    exact .inl ⟨rfl, b, hb, by omega, by omega⟩
  · have hstop : code.blockStop (code.blockOf o) = o + 1 := hlast.symm
    have hi' : code.instructions[code.blockStop (code.blockOf o) - 1]? = some instr := by
      rw [hstop]
      exact hi
    have he : o' ∈ code.exits (code.blockStop (code.blockOf o)) instr := by
      rw [hstop]
      exact Code.follow_mem_exits h
    have hmem := Code.exits_subset_blockStarts hw hk hi' he
    obtain ⟨b', hb', hid', hbs', -⟩ := Graph.exists_block (Code.blockOf_start hmem)
    refine .inr ⟨b, hb, b', hb', by omega, by omega, hbs'.symm, ?_⟩
    rw [hid, hid', Code.successors_eq_exits hw hk hi']
    exact List.mem_map_of_mem he

theorem Graph.Flows.lt_size {o o' : Nat} (h : (Graph.build code).Flows o o') : o' < code.size := by
  rcases h with ⟨-, b, hb, -, hlt⟩ | ⟨-, -, b', hb', -, -, rfl, -⟩
  · obtain ⟨-, hstop⟩ := Graph.mem_blocks hb
    have hle := code.blockStop_le b.id
    omega
  · obtain ⟨hstart, -⟩ := Graph.mem_blocks hb'
    exact (code.mem_blockStarts.mp (List.mem_of_getElem? hstart)).1

end

/-- A move stays inside a block, or it enters a successor. -/
theorem Graph.Flows.blockOf {code : Code} {o o' : Nat} (h : (Graph.build code).Flows o o') :
    (o' ∉ code.blockStarts ∧ code.blockOf o' = code.blockOf o) ∨
      (o' ∈ code.blockStarts ∧ code.blockOf o' ∈ (Graph.build code).successors (code.blockOf o)) := by
  rcases h with ⟨rfl, b, hb, hlo, hhi⟩ | ⟨b, hb, b', hb', hlo, hlast, rfl, hsucc⟩
  · obtain ⟨hstart, hstop⟩ := Graph.mem_blocks hb
    rw [hstop] at hhi
    refine .inl ⟨Code.not_mem_blockStarts hstart (by omega) hhi, ?_⟩
    rw [Code.blockOf_eq hstart (by omega) hhi, Code.blockOf_eq hstart hlo (by omega)]
  · obtain ⟨hstart, hstop⟩ := Graph.mem_blocks hb
    obtain ⟨hstart', -⟩ := Graph.mem_blocks hb'
    refine .inr ⟨List.mem_of_getElem? hstart', ?_⟩
    rw [Code.blockOf_eq hstart hlo (by omega),
      Code.blockOf_eq hstart' (Nat.le_refl _) (Code.start_lt_blockStop hstart')]
    exact hsucc

/-- The turn goes on where `target` says, or traps, or leaves where `target` says so. -/
inductive Turn.Follows (target : Option Nat) : Turn → Prop
  | next {s : FrameState} {m : Machine} (h : target = some s.pc) : Follows target (.next s m)
  | wait {f : FunctionRef} {type : FuncType} {s : FrameState} {m : Machine}
      (h : target = some s.pc) : Follows target (.wait f type s m)
  | trap {kind : TrapKind} {m : Machine} : Follows target (.done (.trap kind) m)
  | leave {result : ExecutionResult} {m : Machine} (h : target = none) :
      Follows target (.done result m)

section
variable {r : Running} {s : FrameState}

theorem branch_follows (target : BranchTarget) (arity next previous : Nat) (frame : Frame)
    (m : Machine) :
    ((Outcome.branch target arity frame m).toTurn r next previous).Follows (some target.offset) := by
  unfold Outcome.branch
  split
  · exact .trap
  · exact .next rfl

theorem ofNumeric_follows (next previous : Nat) (frame : Frame) (m : Machine)
    (result : Except TrapKind Cell) :
    ((Outcome.ofNumeric next frame m result).toTurn r next previous).Follows (some next) := by
  cases result with
  | ok c => exact .next rfl
  | error kind => exact .trap

/-- The interpreter goes on where `Code.follow` says. -/
theorem step_follows (obs : Observers) (i : InstanceId) {code : Code} {instr : Instruction}
    (hne : ∀ table arity, instr = .brTable table arity → code.branchTable table ≠ [])
    (next previous : Nat) (frame : Frame) (m : Machine) :
    ((step obs i code instr next frame m).toTurn r next previous).Follows
      (code.follow next frame.peek instr) := by
  cases instr with
  | unreachable => exact .trap
  | return_ => exact .leave rfl
  | if_ otherwise => exact .next rfl
  | else_ resume => exact .next rfl
  | end_ =>
    unfold step Code.follow
    dsimp only
    split
    · exact .leave rfl
    · exact .next rfl
  | br target arity => exact branch_follows ..
  | brIf target arity =>
    unfold step Code.follow
    dsimp only
    split
    · exact branch_follows ..
    · exact .next rfl
  | brTable table arity =>
    obtain ⟨target, -, ht⟩ := Code.exists_selectTarget (hne table arity rfl) frame.peek.index
    unfold step Code.follow
    dsimp only
    rw [ht]
    exact branch_follows ..
  | call func => exact .wait rfl
  | callIndirect type =>
    unfold step stepCallIndirect
    dsimp only
    split
    · exact .trap
    · exact .trap
    · split
      · exact .wait rfl
      · exact .trap
  | load op offset =>
    unfold step stepLoad
    dsimp only
    repeat' split
    · exact .next rfl
    · exact .trap
    · exact .trap
  | store op offset =>
    unfold step stepStore
    dsimp only
    repeat' split
    · exact .next rfl
    · exact .trap
    · exact .trap
  | memoryGrow =>
    unfold step
    dsimp only
    split
    · exact .next rfl
    · exact .next rfl
  | unary op => exact ofNumeric_follows ..
  | binary op => exact ofNumeric_follows ..
  | _ => exact .next rfl

theorem turn_follows (obs : Observers) (hw : r.code.WellFormed) (hr : r.Faithful)
    {instr : Instruction} (hi : r.code.instructions[s.pc]? = some instr) (m : Machine) :
    (turn obs r s m).Follows (r.code.follow (s.pc + 1) s.frame.peek instr) := by
  have hinstr : r.instruction s.pc = instr := by
    rw [hr s.pc, Array.getD_eq_getD_getElem?, hi, Option.getD_some]
  unfold turn
  rcases m.context.charge with ⟨_ | _, context⟩
  · exact .trap
  · dsimp only
    rw [hinstr]
    refine step_follows obs r.inst (fun table arity he => ?_) _ _ _ _
    subst he
    exact (hw.tables table arity (Array.mem_of_getElem? hi)).1

end

end WasmEngine
