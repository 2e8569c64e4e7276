import WasmEngine.Instruction

/-!
# Opcodes and mnemonics

The number and the textual name of every instruction, and the reading of an instruction from its
name and its numeric operands. Families are listed in the order of their numbers, so the number of
a member is its place in the list.
-/
namespace WasmEngine
set_option autoImplicit false

namespace LoadOp

/-- Every load, from opcode 40 on. -/
def all : List LoadOp :=
  [.full .i32, .full .i64, .full .f32, .full .f64,
    .packed8 .i32 .signed, .packed8 .i32 .unsigned, .packed16 .i32 .signed, .packed16 .i32 .unsigned,
    .packed8 .i64 .signed, .packed8 .i64 .unsigned, .packed16 .i64 .signed, .packed16 .i64 .unsigned,
    .packed32 .signed, .packed32 .unsigned]

def name : LoadOp → String
  | .full t => t.name ++ ".load"
  | .packed8 t s => t.name ++ ".load8" ++ s.suffix
  | .packed16 t s => t.name ++ ".load16" ++ s.suffix
  | .packed32 s => "i64.load32" ++ s.suffix

end LoadOp

namespace StoreOp

/-- Every store, from opcode 54 on. -/
def all : List StoreOp :=
  [.full .i32, .full .i64, .full .f32, .full .f64, .packed8 .i32, .packed16 .i32, .packed8 .i64,
    .packed16 .i64, .packed32]

def name : StoreOp → String
  | .full t => t.name ++ ".store"
  | .packed8 t => t.name ++ ".store8"
  | .packed16 t => t.name ++ ".store16"
  | .packed32 => "i64.store32"

end StoreOp

namespace UnaryOp

def name : UnaryOp → String
  | .eqz t => t.name ++ ".eqz"
  | .int t op => t.name ++ "." ++ op.name
  | .float t op => t.name ++ "." ++ op.name
  | .convert op => op.name

end UnaryOp

namespace BinaryOp

def name : BinaryOp → String
  | .int t op => t.name ++ "." ++ op.name
  | .intCompare t op => t.name ++ "." ++ op.name
  | .float t op => t.name ++ "." ++ op.name
  | .floatCompare t op => t.name ++ "." ++ op.name

end BinaryOp

namespace Instruction

/-- The tests of an integer type: against zero, and the comparisons. -/
def intTests (t : IntType) : List Instruction :=
  .unary (.eqz t) :: IntCompare.all.map fun op => .binary (.intCompare t op)

def floatTests (t : FloatType) : List Instruction :=
  FloatCompare.all.map fun op => .binary (.floatCompare t op)

def intArithmetic (t : IntType) : List Instruction :=
  [.unary (.int t .clz), .unary (.int t .ctz), .unary (.int t .popcnt)] ++
    IntBinary.all.map fun op => .binary (.int t op)

def floatArithmetic (t : FloatType) : List Instruction :=
  (FloatUnary.all.map fun op => .unary (.float t op)) ++
    FloatBinary.all.map fun op => .binary (.float t op)

/-- The numeric instructions without immediates, from opcode 69 on. -/
def numeric : List Instruction :=
  intTests .i32 ++ intTests .i64 ++ floatTests .f32 ++ floatTests .f64 ++ intArithmetic .i32 ++
    intArithmetic .i64 ++ floatArithmetic .f32 ++ floatArithmetic .f64 ++
    Conversion.all.map fun op => .unary (.convert op)

/-- The number of the instruction in the binary format. -/
def opcode : Instruction → Nat
  | .unreachable => 0
  | .nop => 1
  | .block => 2
  | .loop => 3
  | .if_ _ => 4
  | .else_ _ => 5
  | .end_ => 11
  | .br _ _ => 12
  | .brIf _ _ => 13
  | .brTable _ _ => 14
  | .return_ => 15
  | .call _ => 16
  | .callIndirect _ => 17
  | .drop => 26
  | .select => 27
  | .localGet _ => 32
  | .localSet _ => 33
  | .localTee _ => 34
  | .globalGet _ => 35
  | .globalSet _ => 36
  | .load op _ => 40 + LoadOp.all.idxOf op
  | .store op _ => 54 + StoreOp.all.idxOf op
  | .memorySize => 63
  | .memoryGrow => 64
  | .const t _ => 65 + ValType.all.idxOf t
  | .unary op => 69 + numeric.idxOf (.unary op)
  | .binary op => 69 + numeric.idxOf (.binary op)
  | .probe _ => 255

def mnemonic : Instruction → String
  | .unreachable => "unreachable"
  | .nop => "nop"
  | .block => "block"
  | .loop => "loop"
  | .if_ _ => "if"
  | .else_ _ => "else"
  | .end_ => "end"
  | .br _ _ => "br"
  | .brIf _ _ => "br_if"
  | .brTable _ _ => "br_table"
  | .return_ => "return"
  | .call _ => "call"
  | .callIndirect _ => "call_indirect"
  | .drop => "drop"
  | .select => "select"
  | .localGet _ => "local.get"
  | .localSet _ => "local.set"
  | .localTee _ => "local.tee"
  | .globalGet _ => "global.get"
  | .globalSet _ => "global.set"
  | .load op _ => op.name
  | .store op _ => op.name
  | .memorySize => "memory.size"
  | .memoryGrow => "memory.grow"
  | .const t _ => t.name ++ ".const"
  | .unary op => op.name
  | .binary op => op.name
  | .probe _ => "probe"

/-- The numeric immediates, in writing order. An instruction without immediates is written with a
single zero. -/
def operands : Instruction → List Nat
  | .br t arity | .brIf t arity => [t.offset, t.drop, arity]
  | .brTable table arity => [table, arity]
  | .if_ n | .else_ n | .call n | .callIndirect n | .localGet n | .localSet n | .localTee n
  | .globalGet n | .globalSet n | .load _ n | .store _ n | .probe n => [n]
  | .const t c => [c.bitsOf t]
  | _ => [0]

/-- Every instruction with the given first immediates, a constant taking the first as its bits. -/
def withOperands (a b c : Nat) : List Instruction :=
  [.unreachable, .nop, .block, .loop, .if_ a, .else_ a, .end_, .br ⟨a, b⟩ c, .brIf ⟨a, b⟩ c,
    .brTable a b, .return_, .call a, .callIndirect a, .drop, .select, .localGet a, .localSet a,
    .localTee a, .globalGet a, .globalSet a, .memorySize, .memoryGrow, .probe a] ++
    (LoadOp.all.map fun op => .load op a) ++ (StoreOp.all.map fun op => .store op a) ++
    (ValType.all.map fun t => .const t (BitVec.ofNat 64 a)) ++ numeric

/-- The instruction with the given name; missing operands are zero. -/
def assemble? (name : String) (operands : List Nat) : Option Instruction :=
  (withOperands (operands.getD 0 0) (operands.getD 1 0) (operands.getD 2 0)).find?
    (·.mnemonic == name)

end Instruction

end WasmEngine
