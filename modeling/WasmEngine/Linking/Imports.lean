import WasmEngine.Store
import WasmEngine.Execution.Journal
import WasmEngine.Linking.Error

/-!
# Imports

The set of entities that modules are linked against, and the check of an entity against the import
that asks for it. Of several entities added under one name the last counts.
-/
namespace WasmEngine
set_option autoImplicit false

/-- Entities by module name and name. -/
structure Imports where
  entities : List ((String × String) × Entity) := []
  deriving Inhabited

namespace Imports

def add (s : Imports) (moduleName name : String) (e : Entity) : Imports :=
  ⟨assign (moduleName, name) e s.entities⟩

/-- Adds all exports of an instance under a module name. -/
def addInstance (s : Imports) (moduleName : String) (i : ModuleInstance) : Imports :=
  i.exports.foldl (fun s e => s.add moduleName e.1 e.2) s

def find? (s : Imports) (moduleName name : String) : Option Entity :=
  s.entities.lookup (moduleName, name)

def size (s : Imports) : Nat := s.entities.length

end Imports

namespace Limits

/-- The limits of a provided entity lie within the declared ones. -/
def check (provided declared : Limits) : Except LinkError Unit :=
  if provided.min < declared.min then .error .minBelowDeclared
  else match declared.max with
    | none => .ok ()
    | some most =>
      if provided.max.any (· ≤ most) then .ok () else .error .maxAboveDeclared

end Limits

namespace Import

variable (i : Import)

/-- Checks the limits and the current size of a provided table or memory. -/
def checkSize (provided declared : Limits) (size : Nat) : Except LinkError Unit := do
  provided.check declared
  if provided.admits size then .ok () else .error (.sizeOutsideLimits i.kind i.fullName)

def checkGlobal (provided declared : GlobalType) : Except LinkError Unit :=
  if provided.valType ≠ declared.valType then .error (.globalTypeMismatch i.fullName)
  else if provided.isMutable ≠ declared.isMutable then
    .error (.globalMutabilityMismatch i.fullName)
  else .ok ()

/-- Checks an entity of a store against the import that asks for it. -/
def check (s : Store) (e : Entity) : Except LinkError Unit :=
  match i.type, e with
  | .function declared, .function _ provided =>
    if provided = declared then .ok () else .error (.functionTypeMismatch i.fullName)
  | .table declared, .table address =>
    match address.bind (s.tables[·]?) with
    | none => .error (.noStorage .table i.fullName)
    | some t => i.checkSize t.limits declared t.size
  | .memory declared, .memory address =>
    match address.bind (s.memories[·]?) with
    | none => .error (.noStorage .memory i.fullName)
    | some m => i.checkSize m.limits declared m.pages
  | .global declared, .global address =>
    match address.bind (s.globals[·]?) with
    | none => .error (.noStorage .global i.fullName)
    | some g => i.checkGlobal g.type declared
  | _, _ => .error (.kindMismatch i.fullName i.kind e.kind)

/-- The entity that a set provides for the import, if it conforms. -/
def resolve (s : Store) (set : Imports) : Except LinkError Entity :=
  match set.find? i.moduleName i.name with
  | none => .error (.missingImport i.fullName)
  | some e => do
    i.check s e
    return e

end Import

namespace Module

variable (m : Module)

/-- The entities that a set provides for the imports of a module, in section order. -/
def resolveImports (s : Store) (set : Imports) : Except LinkError (List Entity) :=
  m.imports.mapM (·.resolve s set)

/-- A notice for every import resolved before the first that is not. -/
def resolutionNotices (s : Store) (set : Imports) : List Notice :=
  (m.imports.takeWhile fun i => (i.resolve s set).isOk).map fun i =>
    .importResolved i.fullName i.kind

/-- Checks a list of entities against the imports of a module, one by one. -/
def checkImports (s : Store) (entities : List Entity) : Except LinkError Unit :=
  if entities.length ≠ m.imports.length then
    .error (.importCount m.imports.length entities.length)
  else (m.imports.zip entities).forM fun (i, e) => i.check s e

end Module

/-- A memory that host code is tied to, once it is bound. -/
structure MemoryBinding where
  address : Option MemoryAddr := none
  deriving DecidableEq, Inhabited

namespace MemoryBinding

/-- The name under which a memory is exported unless another is given. -/
def defaultExport : String := "memory"

def ofExport (i : ModuleInstance) (name : String) : Except LinkError MemoryBinding :=
  match i.exportedMemory? name with
  | some address => .ok ⟨some address⟩
  | none => .error (.noExportedMemory name)

/-- The binding after an attempt to bind it anew, and the error if that failed. A failed attempt
leaves the binding as it was. -/
def rebind (b : MemoryBinding) : Except LinkError MemoryBinding → MemoryBinding × Option LinkError
  | .ok bound => (bound, none)
  | .error e => (b, some e)

/-- The message of an access through a binding that is not bound. -/
def unboundMessage : String := "memory binding is not bound"

end MemoryBinding

end WasmEngine
