/-!
# Traps

The reasons for which a call stops without a result, and their texts.
-/
namespace WasmEngine
set_option autoImplicit false

/-- Why a call was aborted. `none` is the reason of a trap that a host function raised without
naming one. -/
inductive TrapKind where
  | none
  | unreachable
  | memoryOutOfBounds
  | undefinedElement
  | uninitializedElement
  | indirectCallTypeMismatch
  | integerDivideByZero
  | integerOverflow
  | invalidConversionToInteger
  | callStackExhausted
  | outOfTicks
  | interrupted
  | host
  deriving DecidableEq, Inhabited

namespace TrapKind

def all : List TrapKind :=
  [.none, .unreachable, .memoryOutOfBounds, .undefinedElement, .uninitializedElement,
    .indirectCallTypeMismatch, .integerDivideByZero, .integerOverflow, .invalidConversionToInteger,
    .callStackExhausted, .outOfTicks, .interrupted, .host]

def number (kind : TrapKind) : Nat := all.idxOf kind

def name : TrapKind → String
  | .none => "none"
  | .unreachable => "unreachable"
  | .memoryOutOfBounds => "memory_out_of_bounds"
  | .undefinedElement => "undefined_element"
  | .uninitializedElement => "uninitialized_element"
  | .indirectCallTypeMismatch => "indirect_call_type_mismatch"
  | .integerDivideByZero => "integer_divide_by_zero"
  | .integerOverflow => "integer_overflow"
  | .invalidConversionToInteger => "invalid_conversion_to_integer"
  | .callStackExhausted => "call_stack_exhausted"
  | .outOfTicks => "out_of_ticks"
  | .interrupted => "interrupted"
  | .host => "host"

def ofName? (s : String) : Option TrapKind := all.find? (·.name == s)

/-- The sentence shown to the user of the engine. -/
def message : TrapKind → String
  | .none => "no trap"
  | .unreachable => "unreachable executed"
  | .memoryOutOfBounds => "out of bounds memory access"
  | .undefinedElement => "undefined element"
  | .uninitializedElement => "uninitialized element"
  | .indirectCallTypeMismatch => "indirect call type mismatch"
  | .integerDivideByZero => "integer divide by zero"
  | .integerOverflow => "integer overflow"
  | .invalidConversionToInteger => "invalid conversion to integer"
  | .callStackExhausted => "call stack exhausted"
  | .outOfTicks => "out of ticks"
  | .interrupted => "execution interrupted"
  | .host => "host function trapped"

end TrapKind

end WasmEngine
