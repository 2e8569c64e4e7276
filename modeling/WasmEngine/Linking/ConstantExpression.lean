import WasmEngine.Store
import WasmEngine.Instruction.Opcode
import WasmEngine.Linking.Error

/-!
# Constant expressions

Global initializers and segment offsets. Only constants and reads of imported globals are allowed,
and exactly one value of the expected type must result. A forbidden instruction is reported before
a wrong number of results, and that before a wrong type.
-/
namespace WasmEngine
set_option autoImplicit false

/-- The value an instruction of a constant expression leaves; `end` leaves none. -/
def constantValue? (imported : List Global) :
    Instruction → Except LinkError (Option (Cell × ValType))
  | .const type value => .ok (some (value, type))
  | .globalGet index =>
    match imported[index]? with
    | some g => .ok (some (g.value, g.type.valType))
    | none => .error (.globalNotImported index)
  | .end_ => .ok none
  | instr => .error (.notConstant instr.opcode)

/-- The values a constant expression leaves, in order. -/
def constantValues (imported : List Global) :
    ConstantExpression → Except LinkError (List (Cell × ValType))
  | [] => .ok []
  | instr :: rest => do
    let value ← constantValue? imported instr
    let values ← constantValues imported rest
    return value.toList ++ values

/-- The value of a constant expression of the expected type. -/
def evalConstant (imported : List Global) (expected : ValType) (e : ConstantExpression) :
    Except LinkError Cell := do
  match ← constantValues imported e with
  | [(value, type)] => if type = expected then return value else .error (.resultType expected type)
  | values => .error (.resultCount values.length)

end WasmEngine
