import WasmEngine.Types

/-!
# Untyped cells

Operands, locals and globals are 64-bit cells without a type of their own. A 32-bit value occupies
the lower half; the upper half of a well-formed 32-bit integer cell is zero.
-/
namespace WasmEngine
set_option autoImplicit false

/-- The raw bits of an operand, a local or a global. -/
abbrev Cell := BitVec 64

namespace Cell

/-- The lower half, which holds a 32-bit value. -/
def low (c : Cell) : BitVec 32 := c.setWidth 32

/-- A cell with the given lower half and a zero upper half. -/
def ofLow (x : BitVec 32) : Cell := x.setWidth 64

def word (t : IntType) (c : Cell) : BitVec t.bits := c.setWidth t.bits

/-- A word of the given integer type as a zero-extended cell. -/
def ofWord (t : IntType) (x : BitVec t.bits) : Cell := x.setWidth 64

/-- The bits of the cell that belong to a value of the type. -/
def bitsOf (t : ValType) (c : Cell) : Nat :=
  match t with
  | .i32 | .f32 => c.low.toNat
  | .i64 | .f64 => c.toNat

/-- The unsigned number of the lower half: an address, an index or a condition. -/
def index (c : Cell) : Nat := c.low.toNat

def ofBool (b : Bool) : Cell := if b then 1 else 0

/-- A condition holds when the lower half is not zero. -/
def isTrue (c : Cell) : Bool := c.low != 0

/-- The cell is well-formed for the type: the upper half of a 32-bit integer is zero. -/
def wellFormed (t : ValType) (c : Cell) : Bool :=
  match t with
  | .i32 => c.toNat < 0x100000000
  | _ => true

end Cell

end WasmEngine
