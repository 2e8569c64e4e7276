import WasmEngine.ControlFlow.Graph
import WasmEngine.Binary.NameSection

/-!
# Modules

A module in compiled form and the questions asked about it. In every index space the imported
entities come first, in the order of the import section, and the declared ones follow.
-/
namespace WasmEngine
set_option autoImplicit false

/-- An expression evaluated when a module is instantiated. -/
abbrev ConstantExpression := List Instruction

structure Import where
  moduleName : String
  name : String
  type : EntityType
  deriving DecidableEq, Inhabited

def Import.fullName (i : Import) : String := i.moduleName ++ "." ++ i.name

def Import.kind (i : Import) : EntityKind := i.type.kind

structure FunctionDef where
  /-- The place of the function's type in the type section. -/
  type : Nat
  code : Code
  deriving Inhabited

structure GlobalDef where
  type : GlobalType
  init : ConstantExpression
  deriving Inhabited

structure Export where
  name : String
  kind : EntityKind
  index : Nat
  deriving DecidableEq, Inhabited

/-- Functions written into table 0. -/
structure ElementSegment where
  offset : ConstantExpression
  functions : List Nat
  deriving Inhabited

/-- Bytes written into memory 0. -/
structure DataSegment where
  offset : ConstantExpression
  bytes : List UInt8
  deriving Inhabited

structure Module where
  types : List FuncType := []
  imports : List Import := []
  functions : List FunctionDef := []
  tables : List Limits := []
  memories : List Limits := []
  globals : List GlobalDef := []
  exports : List Export := []
  start : Option Nat := none
  elements : List ElementSegment := []
  data : List DataSegment := []
  names : Option NameSection := none
  deriving Inhabited

namespace Module

variable (m : Module)

def importsOf (kind : EntityKind) : List Import := m.imports.filter (·.kind == kind)

def importCount (kind : EntityKind) : Nat := (m.importsOf kind).length

/-- The number of entities the module declares itself. -/
def declaredCount : EntityKind → Nat
  | .function => m.functions.length
  | .table => m.tables.length
  | .memory => m.memories.length
  | .global => m.globals.length

def count (kind : EntityKind) : Nat := m.importCount kind + m.declaredCount kind

def functionTypes : List FuncType :=
  (m.imports.filterMap fun i => match i.type with
    | .function t => some t
    | _ => none) ++ m.functions.map fun f => m.types.getD f.type {}

def globalTypes : List GlobalType :=
  (m.imports.filterMap fun i => match i.type with
    | .global t => some t
    | _ => none) ++ m.globals.map (·.type)

def functionType? (index : Nat) : Option FuncType := m.functionTypes[index]?

def globalType? (index : Nat) : Option GlobalType := m.globalTypes[index]?

/-- The body of a function of the index space, none if it is imported. -/
def code? (index : Nat) : Option Code :=
  if index < m.importCount .function then none
  else (m.functions[index - m.importCount .function]?).map (·.code)

def graph? (index : Nat) : Option Graph := (m.code? index).map Graph.build

/-- The debug name of a function, or a name made of its index. -/
def functionName (index : Nat) : String :=
  (m.names.bind (·.functionName? index)).getD ("$func" ++ toString index)

/-- The index of the first export with the kind and name. -/
def findExport? (kind : EntityKind) (name : String) : Option Nat :=
  (m.exports.find? fun e => e.kind == kind && e.name == name).map (·.index)

end Module

end WasmEngine
