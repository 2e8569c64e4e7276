import WasmEngine.Types
import WasmEngine.Trap

/-!
# Instantiation errors

The causes for which a module cannot be linked or started, the code of each and its text.
-/
namespace WasmEngine
set_option autoImplicit false

/-- The class of an error, as the embedder sees it. -/
inductive ErrorCode where
  | missingImport
  | importTypeMismatch
  | globalInitializer
  | memoryLimitExceeded
  | segmentOutOfBounds
  | startFunctionTrapped
  | malformedNameSection
  deriving DecidableEq, Inhabited

def ErrorCode.name : ErrorCode → String
  | .missingImport => "MISSING_IMPORT"
  | .importTypeMismatch => "IMPORT_TYPE_MISMATCH"
  | .globalInitializer => "GLOBAL_INITIALIZER"
  | .memoryLimitExceeded => "MEMORY_LIMIT_EXCEEDED"
  | .segmentOutOfBounds => "SEGMENT_OUT_OF_BOUNDS"
  | .startFunctionTrapped => "START_FUNCTION_TRAPPED"
  | .malformedNameSection => "MALFORMED_NAME_SECTION"

inductive LinkError where
  | missingImport (name : String)
  /-- The list of entities is not as long as the import section. -/
  | importCount (required provided : Nat)
  | kindMismatch (name : String) (required provided : EntityKind)
  | functionTypeMismatch (name : String)
  /-- The provided entity has no storage. -/
  | noStorage (kind : EntityKind) (name : String)
  | minBelowDeclared
  | maxAboveDeclared
  /-- The current size contradicts the limits of the provided entity itself. -/
  | sizeOutsideLimits (kind : EntityKind) (name : String)
  | globalTypeMismatch (name : String)
  | globalMutabilityMismatch (name : String)
  /-- A constant expression reads a global that is not imported. -/
  | globalNotImported (index : Nat)
  | notConstant (opcode : Nat)
  | resultCount (count : Nat)
  | resultType (expected actual : ValType)
  | memoryLimit (bytes : Nat)
  | tableLimit (elements : Nat)
  | dataOutOfBounds
  | elementsOutOfBounds
  /-- A binding names an export that is not a memory. -/
  | noExportedMemory (name : String)
  deriving DecidableEq, Inhabited

namespace LinkError

def code : LinkError → ErrorCode
  | .missingImport _ | .importCount _ _ | .noExportedMemory _ => .missingImport
  | .kindMismatch _ _ _ | .functionTypeMismatch _ | .noStorage _ _ | .minBelowDeclared
  | .maxAboveDeclared | .sizeOutsideLimits _ _ | .globalTypeMismatch _
  | .globalMutabilityMismatch _ => .importTypeMismatch
  | .globalNotImported _ | .notConstant _ | .resultCount _ | .resultType _ _ => .globalInitializer
  | .memoryLimit _ | .tableLimit _ => .memoryLimitExceeded
  | .dataOutOfBounds | .elementsOutOfBounds => .segmentOutOfBounds

def message : LinkError → String
  | .missingImport name => "missing import " ++ name
  | .importCount required provided => s!"module requires {required} imports, {provided} provided"
  | .kindMismatch name required provided =>
    "import " ++ name ++ " must be a " ++ required.name ++ " but a " ++ provided.name ++
      " was provided"
  | .functionTypeMismatch name =>
    "function " ++ name ++ " type doesn't match module's imported function type"
  | .noStorage .global name => "global " ++ name ++ " has a null pointer to value"
  | .noStorage kind name =>
    "provided imported " ++ kind.name ++ " " ++ name ++ " has a null pointer"
  | .minBelowDeclared => "provided import's min is below import's min defined in module"
  | .maxAboveDeclared => "provided import's max is above import's max defined in module"
  | .sizeOutsideLimits kind name =>
    "provided imported " ++ kind.name ++ " " ++ name ++ " doesn't fit provided limits"
  | .globalTypeMismatch name =>
    "global " ++ name ++ " value type doesn't match module's global type"
  | .globalMutabilityMismatch name =>
    "global " ++ name ++ " mutability doesn't match module's global mutability"
  | .globalNotImported index =>
    s!"constant expression can only read imported globals, global {index} is not imported"
  | .notConstant opcode => s!"instruction {opcode} is not allowed in a constant expression"
  | .resultCount count => s!"global expression must return a single result but got {count}"
  | .resultType expected actual =>
    "global expression must return " ++ expected.name ++ " but got " ++ actual.name
  | .memoryLimit bytes => s!"cannot exceed hard memory limit of {bytes} bytes"
  | .tableLimit elements => s!"cannot exceed hard table limit of {elements} elements"
  | .dataOutOfBounds => "data segment is out of memory bounds"
  | .elementsOutOfBounds => "element segment is out of table bounds"
  | .noExportedMemory name => "instance has no memory exported as " ++ name

end LinkError

inductive InstantiationError where
  | link (e : LinkError)
  | startTrapped (kind : TrapKind)
  deriving DecidableEq, Inhabited

namespace InstantiationError

def code : InstantiationError → ErrorCode
  | .link e => e.code
  | .startTrapped _ => .startFunctionTrapped

def message : InstantiationError → String
  | .link e => e.message
  | .startTrapped kind => "start function failed to execute: " ++ kind.message

end InstantiationError

end WasmEngine
