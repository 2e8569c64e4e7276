import WasmEngine.Code

/-!
# Control-flow graphs

The blocks of a body and the jumps between them. A block begins at the first instruction, at every
branch target and after every instruction that transfers control; it reaches up to the next block.
-/
namespace WasmEngine
set_option autoImplicit false

abbrev BlockId := Nat

/-- How a block is left. -/
inductive Jump where
  | goto (target : BlockId)
  /-- `taken` when the condition is not zero, `other` when it is. -/
  | cond (taken other : BlockId)
  | table (cases : List BlockId) (default : BlockId)
  deriving DecidableEq, Inhabited

namespace Jump

/-- The blocks a jump leads to, the default of a table last. -/
def targets : Jump → List BlockId
  | .goto t => [t]
  | .cond t o => [t, o]
  | .table cases d => cases ++ [d]

end Jump

/-- The instructions from `start` up to, but not including, `stop`. -/
structure Block where
  id : BlockId
  start : Nat
  stop : Nat
  /-- `none` where execution leaves the function. -/
  jump : Option Jump := none
  deriving DecidableEq, Inhabited

structure Graph where
  blocks : List Block := []
  deriving DecidableEq, Inhabited

namespace Graph

/-- The block that holds the instruction at an offset: the last one that begins at or before it. -/
def blockAt (g : Graph) (offset : Nat) : BlockId :=
  match (g.blocks.takeWhile (·.start ≤ offset)).getLast? with
  | some block => block.id
  | none => 0

def successors (g : Graph) (id : BlockId) : List BlockId :=
  match g.blocks[id]? with
  | some block => (block.jump.map Jump.targets).getD []
  | none => []

end Graph

namespace Code

/-- The offsets that begin a block because of the instruction at `offset`. -/
def leadersAt (code : Code) (offset : Nat) : List Nat :=
  match code.instructions[offset]? with
  | none => []
  | some instr =>
    code.targets instr ++ if instr.transfersControl then [offset + 1] else []

/-- All offsets that begin a block, in no particular order; some may lie outside the body. -/
def leaders (code : Code) : List Nat :=
  0 :: (List.range code.size).flatMap code.leadersAt

/-- The begins of the blocks, increasing. -/
def blockStarts (code : Code) : List Nat :=
  let leaders := code.leaders
  (List.range code.size).filter leaders.contains

end Code

namespace Graph

/-- The number of the block that holds an offset, counted by the begins at or before it. -/
def indexOf (starts : List Nat) (offset : Nat) : BlockId :=
  starts.countP (· ≤ offset) - 1

/-- How the block `id`, whose last instruction stands before `stop`, is left. -/
def jumpOf (code : Code) (starts : List Nat) (id stop : Nat) : Option Jump :=
  match code.instructions[stop - 1]? with
  | some (.br t _) => some (.goto (indexOf starts t.offset))
  | some (.else_ n) => some (.goto (indexOf starts n))
  | some (.brIf t _) => some (.cond (indexOf starts t.offset) (id + 1))
  | some (.if_ n) => some (.cond (id + 1) (indexOf starts n))
  | some (.brTable table _) =>
    let targets := (code.branchTable table).map fun t => indexOf starts t.offset
    targets.getLast?.map fun d => .table targets.dropLast d
  | some .return_ => none
  | some .unreachable => none
  | _ => if stop < code.size then some (.goto (id + 1)) else none

/-- The control-flow graph of a body whose branch targets lie inside it. -/
def build (code : Code) : Graph :=
  let starts := code.blockStarts
  let extents := starts.zip (starts.tail ++ [code.size])
  ⟨extents.mapIdx fun id (start, stop) => ⟨id, start, stop, jumpOf code starts id stop⟩⟩

end Graph

end WasmEngine
