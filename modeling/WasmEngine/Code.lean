import WasmEngine.Instruction

/-!
# Function bodies

A body in compiled form: instructions with resolved branch targets, the branch tables they refer
to, the declared locals and the operand height the body needs.
-/
namespace WasmEngine
set_option autoImplicit false

structure Code where
  instructions : Array Instruction := #[]
  /-- Each table lists its cases and ends with the default. -/
  branchTables : List (List BranchTarget) := []
  /-- The declared locals, without the parameters. -/
  locals : List ValType := []
  /-- The largest number of operands the body holds at once. -/
  maxHeight : Nat := 0
  deriving DecidableEq, Inhabited

namespace Code

def size (code : Code) : Nat := code.instructions.size

/-- The targets of a branch table, none if the body has no such table. -/
def branchTable (code : Code) (index : Nat) : List BranchTarget :=
  code.branchTables.getD index []

/-- The offsets at which an instruction of the body may go on, other than the one after it. -/
def targets (code : Code) : Instruction → List Nat
  | .br t _ | .brIf t _ => [t.offset]
  | .if_ n | .else_ n => [n]
  | .brTable table _ => (code.branchTable table).map (·.offset)
  | _ => []

end Code

/-- The instructions after which a new block begins. -/
def Instruction.transfersControl : Instruction → Bool
  | .unreachable | .if_ _ | .else_ _ | .br _ _ | .brIf _ _ | .brTable _ _ | .return_ => true
  | _ => false

end WasmEngine
