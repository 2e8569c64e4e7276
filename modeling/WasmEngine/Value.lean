import WasmEngine.Cell
import WasmEngine.Hexadecimal
import WasmEngine.Numeric.Format

/-!
# Values as text

A value is a cell with its type. It is written as the name of the type, a colon and the raw bits in
hexadecimal; a NaN is written without its bits unless they are asked for.
-/
namespace WasmEngine
set_option autoImplicit false

structure Value where
  type : ValType
  cell : Cell
  deriving DecidableEq, Inhabited

/-- Bits of a value of the type, in as many digits as the type takes. -/
def ValType.bitsText (t : ValType) (bits : Nat) : String := Hexadecimal.ofNat (2 * t.byteWidth) bits

def ValType.isNaN (t : ValType) (bits : Nat) : Bool :=
  match t with
  | .f32 => Format.binary32.isNaN bits
  | .f64 => Format.binary64.isNaN bits
  | .i32 | .i64 => false

namespace Value

def render (v : Value) (exactNaN : Bool) : String :=
  let bits := v.cell.bitsOf v.type
  v.type.name ++ ":" ++
    if v.type.isNaN bits && !exactNaN then "nan" else v.type.bitsText bits

/-- The value that a text with raw bits denotes. -/
def parse? (s : String) : Option Value :=
  match s.splitOn ":" with
  | [name, digits] => do
    let type ← ValType.ofName? name
    let bits ← Hexadecimal.toNat? digits
    return ⟨type, BitVec.ofNat 64 bits⟩
  | _ => none

end Value

end WasmEngine
