import WasmEngine.Store.Memory
import WasmEngine.Instrumentation.Probe
import WasmEngine.Module

/-!
# The store

Everything that outlives a call: memories, tables, globals and module instances, each under an
address. Instances refer to entities by address, so an imported entity is shared and not copied.
-/
namespace WasmEngine
set_option autoImplicit false

/-- The ceiling of a table for which none is given. -/
def defaultElementsLimit : Nat := 1048576

abbrev MemoryAddr := Nat
abbrev TableAddr := Nat
abbrev GlobalAddr := Nat
abbrev InstanceId := Nat

/-- A function of an instance, by its place in the function index space. -/
structure FunctionRef where
  inst : InstanceId
  func : Nat
  deriving DecidableEq, Inhabited

structure TableElement where
  target : FunctionRef
  /-- The element keeps alive an instance whose start function trapped. -/
  retained : Bool := false
  deriving DecidableEq, Inhabited

structure Table where
  elements : Array (Option TableElement) := #[]
  limits : Limits := {}
  /-- The ceiling set by the embedder. -/
  elementsLimit : Nat := defaultElementsLimit
  deriving Inhabited

namespace Table

/-- A table of null elements of the least declared size. -/
def create (limits : Limits) (elementsLimit : Nat) : Table :=
  ⟨Array.replicate limits.min none, limits, elementsLimit⟩

variable (t : Table)

def size : Nat := t.elements.size

def maxSize : Nat := t.limits.top t.elementsLimit

def canGrow (delta : Nat) : Bool := t.size + delta ≤ t.maxSize

def extend (delta : Nat) : Table :=
  { t with elements := t.elements ++ Array.replicate delta none }

def grow? (delta : Nat) : Option Table := if t.canGrow delta then some (t.extend delta) else none

/-- The table cut or extended with null elements, whatever its limits. -/
def resize (size : Nat) : Table :=
  { t with elements := t.elements.take size ++ Array.replicate (size - t.size) none }

/-- Stores elements one after another. -/
def write (t : Table) (index : Nat) : List TableElement → Table
  | [] => t
  | e :: rest => write { t with elements := t.elements.setIfInBounds index (some e) } (index + 1) rest

/-- Marks `count` elements from an index on as keeping their instance alive. -/
def retain (t : Table) (index : Nat) : Nat → Table
  | 0 => t
  | count + 1 =>
    retain { t with elements := t.elements.modify index (·.map ({ · with retained := true })) }
      (index + 1) count

end Table

structure Global where
  value : Cell
  type : GlobalType
  deriving DecidableEq, Inhabited

/-- What runs when an imported function is called. A host function carries a private state that is
copied with it. -/
inductive Callee where
  | guest (target : FunctionRef)
  | host (id : Nat) (state : Nat)
  deriving DecidableEq, Inhabited

inductive FunctionBody where
  | imported (callee : Callee)
  /-- A function of the module; the instrumented code, if any, is the one that runs. -/
  | defined (code : Code) (instrumented : Option InstrumentedCode)
  deriving Inhabited

structure FunctionInstance where
  type : FuncType
  name : String
  index : Nat
  body : FunctionBody
  deriving Inhabited

/-- An entity given as an import or shown as an export. A missing address stands for an entity
without storage. -/
inductive Entity where
  | function (callee : Callee) (type : FuncType)
  | table (address : Option TableAddr)
  | memory (address : Option MemoryAddr)
  | global (address : Option GlobalAddr)
  deriving DecidableEq, Inhabited

def Entity.kind : Entity → EntityKind
  | .function _ _ => .function
  | .table _ => .table
  | .memory _ => .memory
  | .global _ => .global

/-- Replaces the value of a key, or adds the key at the end. -/
def assign {κ α : Type} [BEq κ] (key : κ) (value : α) : List (κ × α) → List (κ × α)
  | [] => [(key, value)]
  | (k, v) :: rest => if k == key then (key, value) :: rest else (k, v) :: assign key value rest

/-- An instantiated module: its index spaces, imported entities first, and its exports. -/
structure ModuleInstance where
  module : Module := {}
  functions : Array FunctionInstance := #[]
  tables : List TableAddr := []
  memories : List MemoryAddr := []
  globals : Array GlobalAddr := #[]
  exports : List (String × Entity) := []
  /-- The receiver of coverage reports. -/
  listener : Option Nat := none
  /-- The receiver of memory accesses and traced instructions. -/
  tracer : Option Nat := none
  deriving Inhabited

namespace ModuleInstance

variable (i : ModuleInstance)

def exported? (name : String) : Option Entity := i.exports.lookup name

def exportedFunction? (name : String) : Option (Callee × FuncType) :=
  match i.exported? name with
  | some (.function callee type) => some (callee, type)
  | _ => none

def exportedTable? (name : String) : Option TableAddr :=
  match i.exported? name with
  | some (.table address) => address
  | _ => none

def exportedMemory? (name : String) : Option MemoryAddr :=
  match i.exported? name with
  | some (.memory address) => address
  | _ => none

def exportedGlobal? (name : String) : Option GlobalAddr :=
  match i.exported? name with
  | some (.global address) => address
  | _ => none

end ModuleInstance

structure Store where
  memories : Array Memory := #[]
  tables : Array Table := #[]
  globals : Array Global := #[]
  instances : Array ModuleInstance := #[]
  deriving Inhabited

namespace Store

variable (s : Store)

def function? (f : FunctionRef) : Option FunctionInstance :=
  (s.instances[f.inst]?).bind (·.functions[f.func]?)

/-- The address of memory 0 of an instance. -/
def memoryOf? (i : InstanceId) : Option MemoryAddr := (s.instances[i]?).bind (·.memories.head?)

/-- The address of table 0 of an instance. -/
def tableOf? (i : InstanceId) : Option TableAddr := (s.instances[i]?).bind (·.tables.head?)

def globalOf? (i : InstanceId) (index : Nat) : Option GlobalAddr :=
  (s.instances[i]?).bind (·.globals[index]?)

def addMemory (m : Memory) : MemoryAddr × Store :=
  (s.memories.size, { s with memories := s.memories.push m })

def addTable (t : Table) : TableAddr × Store :=
  (s.tables.size, { s with tables := s.tables.push t })

def addGlobal (g : Global) : GlobalAddr × Store :=
  (s.globals.size, { s with globals := s.globals.push g })

def updateMemory (s : Store) (a : MemoryAddr) (f : Memory → Memory) : Store :=
  { s with memories := s.memories.modify a f }

def updateTable (s : Store) (a : TableAddr) (f : Table → Table) : Store :=
  { s with tables := s.tables.modify a f }

def setGlobal (s : Store) (a : GlobalAddr) (value : Cell) : Store :=
  { s with globals := s.globals.modify a ({ · with value }) }

/-- Grows a memory; the previous number of pages, or none and the store unchanged. -/
def growMemory (s : Store) (a : MemoryAddr) (delta : Nat) : Option Nat × Store :=
  match (s.memories[a]?).map fun m => (m.canGrow delta, m.pages) with
  | some (true, pages) => (some pages, s.updateMemory a (·.extend delta))
  | _ => (none, s)

/-- Grows a table; the previous size, or none and the store unchanged. -/
def growTable (s : Store) (a : TableAddr) (delta : Nat) : Option Nat × Store :=
  match (s.tables[a]?).map fun t => (t.canGrow delta, t.size) with
  | some (true, size) => (some size, s.updateTable a (·.extend delta))
  | _ => (none, s)

def hostState? (f : FunctionRef) : Option Nat :=
  match s.function? f with
  | some ⟨_, _, _, .imported (.host _ state)⟩ => some state
  | _ => none

def setHostState (s : Store) (f : FunctionRef) (state : Nat) : Store :=
  let update (g : FunctionInstance) : FunctionInstance :=
    match g.body with
    | .imported (.host id _) => { g with body := .imported (.host id state) }
    | _ => g
  { s with instances := s.instances.modify f.inst fun i =>
      { i with functions := i.functions.modify f.func update } }

/-- The type of an entity; none for an entity without storage. -/
def typeOf? : Entity → Option EntityType
  | .function _ type => some (.function type)
  | .table address => (address.bind (s.tables[·]?)).map fun t => .table t.limits
  | .memory address => (address.bind (s.memories[·]?)).map fun m => .memory m.limits
  | .global address => (address.bind (s.globals[·]?)).map fun g => .global g.type

end Store

end WasmEngine
