import WasmEngine.Numeric.Integer
import WasmEngine.Numeric.Arithmetic
import WasmEngine.Numeric.Conversion

/-!
# Instructions

The instruction set of compiled bodies. Structured control is already resolved: branches carry the
offset at which execution goes on and the number of operands dropped below the carried value. The
numeric instructions are families indexed by type, so that a fact about a family is stated once.
-/
namespace WasmEngine
set_option autoImplicit false

/-- Where a taken branch goes on, and how many operands it drops below the carried ones. -/
structure BranchTarget where
  offset : Nat := 0
  drop : Nat := 0
  deriving DecidableEq, Inhabited

/-- A load: the whole width of a value type, or fewer bytes extended to an integer type. -/
inductive LoadOp where
  | full (type : ValType)
  | packed8 (type : IntType) (sign : Signedness)
  | packed16 (type : IntType) (sign : Signedness)
  | packed32 (sign : Signedness)
  deriving DecidableEq, Inhabited

/-- A store: the whole width of a value type, or the low bytes of an integer. -/
inductive StoreOp where
  | full (type : ValType)
  | packed8 (type : IntType)
  | packed16 (type : IntType)
  | packed32
  deriving DecidableEq, Inhabited

/-- An instruction that replaces the operand on top. -/
inductive UnaryOp where
  | eqz (type : IntType)
  | int (type : IntType) (op : IntUnary)
  | float (type : FloatType) (op : FloatUnary)
  | convert (op : Conversion)
  deriving DecidableEq, Inhabited

/-- An instruction that replaces the two topmost operands by one. -/
inductive BinaryOp where
  | int (type : IntType) (op : IntBinary)
  | intCompare (type : IntType) (op : IntCompare)
  | float (type : FloatType) (op : FloatBinary)
  | floatCompare (type : FloatType) (op : FloatCompare)
  deriving DecidableEq, Inhabited

inductive Instruction where
  | unreachable
  | nop
  | block
  | loop
  /-- Goes on at `otherwise` when the condition is zero. -/
  | if_ (otherwise : Nat)
  /-- The end of the first arm: goes on at `resume`. -/
  | else_ (resume : Nat)
  /-- The end of a block; the last one of a body leaves the function. -/
  | end_
  | br (target : BranchTarget) (arity : Nat)
  | brIf (target : BranchTarget) (arity : Nat)
  /-- Takes its targets from a branch table of the body; the last one is the default. -/
  | brTable (table : Nat) (arity : Nat)
  | return_
  | call (function : Nat)
  | callIndirect (type : Nat)
  | drop
  | select
  | localGet (index : Nat)
  | localSet (index : Nat)
  | localTee (index : Nat)
  | globalGet (index : Nat)
  | globalSet (index : Nat)
  | load (op : LoadOp) (offset : Nat)
  | store (op : StoreOp) (offset : Nat)
  | memorySize
  | memoryGrow
  | const (type : ValType) (value : Cell)
  | unary (op : UnaryOp)
  | binary (op : BinaryOp)
  /-- Stands for an instruction that instrumentation replaced. -/
  | probe (index : Nat)
  deriving DecidableEq, Inhabited

namespace LoadOp

def width : LoadOp → Nat
  | .full t => t.byteWidth
  | .packed8 _ _ => 1
  | .packed16 _ _ => 2
  | .packed32 _ => 4

def resultType : LoadOp → ValType
  | .full t => t
  | .packed8 t _ => t.valType
  | .packed16 t _ => t.valType
  | .packed32 _ => .i64

/-- The number read, extended to the type `t`. -/
def extend (width : Nat) (t : IntType) (sign : Signedness) (n : Nat) : Cell :=
  match sign with
  | .unsigned => BitVec.ofNat 64 n
  | .signed => Cell.ofWord t ((BitVec.ofNat (8 * width) n).signExtend t.bits)

/-- The cell for the little-endian number `n` that was read. -/
def decode (op : LoadOp) (n : Nat) : Cell :=
  match op with
  | .full _ => BitVec.ofNat 64 n
  | .packed8 t s => extend 1 t s n
  | .packed16 t s => extend 2 t s n
  | .packed32 s => extend 4 .i64 s n

end LoadOp

namespace StoreOp

def width : StoreOp → Nat
  | .full t => t.byteWidth
  | .packed8 _ => 1
  | .packed16 _ => 2
  | .packed32 => 4

def operandType : StoreOp → ValType
  | .full t => t
  | .packed8 t => t.valType
  | .packed16 t => t.valType
  | .packed32 => .i64

end StoreOp

namespace UnaryOp

def eval (op : UnaryOp) (c : Cell) : Except TrapKind Cell :=
  match op with
  | .eqz t => .ok (Cell.ofBool (c.word t == 0))
  | .int t op => .ok (Cell.ofWord t (op.eval (c.word t)))
  | .float t op => .ok (BitVec.ofNat 64 (op.eval t.format (c.bitsOf t.valType)))
  | .convert op => op.eval c

end UnaryOp

namespace BinaryOp

def eval (op : BinaryOp) (x y : Cell) : Except TrapKind Cell :=
  match op with
  | .int t op => (op.eval (x.word t) (y.word t)).map (Cell.ofWord t)
  | .intCompare t op => .ok (Cell.ofBool (op.eval (x.word t) (y.word t)))
  | .float t op =>
    .ok (BitVec.ofNat 64 (op.eval t.format (x.bitsOf t.valType) (y.bitsOf t.valType)))
  | .floatCompare t op =>
    .ok (Cell.ofBool (op.eval t.format (x.bitsOf t.valType) (y.bitsOf t.valType)))

end BinaryOp

end WasmEngine
