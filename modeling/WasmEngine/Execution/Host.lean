import WasmEngine.Value
import WasmEngine.Execution.Machine

/-!
# Host functions

The result of a call, and host functions as finite programs over the machine. A host program reads
and changes the machine, calls functions of the guest and ends with a result or a failure.
-/
namespace WasmEngine
set_option autoImplicit false

/-- How a call ends. A host function may also trap without naming a reason. -/
inductive ExecutionResult where
  | void
  | value (c : Cell)
  | trap (kind : TrapKind)
  deriving DecidableEq, Inhabited

/-- The text of the result of a call of a function of the type. -/
def ExecutionResult.render (type : FuncType) (exactNaN : Bool) : ExecutionResult → String
  | .void => "void"
  | .trap kind => "trap:" ++ kind.name
  | .value c =>
    match type.outputs.head? with
    | some t => Value.render ⟨t, c⟩ exactNaN
    | none => "void"

/-- The context in which a host function calls a function. -/
inductive CallScope where
  /-- The context of the running chain. -/
  | same
  /-- A context of its own, discarded afterwards. -/
  | fresh
  deriving DecidableEq, Inhabited

/-- The body of a host function for one call. -/
inductive HostProgram where
  | finish (result : ExecutionResult)
  | fail (failure : Failure)
  | inspect (next : Machine → HostProgram)
  | update (change : Machine → Machine) (next : HostProgram)
  | call (scope : CallScope) (target : FunctionRef) (arguments : List Cell)
      (next : ExecutionResult → HostProgram)

instance : Inhabited HostProgram := ⟨.finish .void⟩

/-- A call of a host function: as which function of which instance, and with which arguments. -/
structure HostCall where
  self : FunctionRef
  arguments : List Cell
  deriving Inhabited

/-- Everything foreign that a run meets: host functions, by number, and observers. -/
structure Environment extends Observers where
  host : Nat → HostCall → HostProgram := fun _ _ => .finish .void

end WasmEngine
