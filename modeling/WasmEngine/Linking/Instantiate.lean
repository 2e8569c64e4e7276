import WasmEngine.Execution.Run
import WasmEngine.Instrumentation.Filter
import WasmEngine.Linking.Imports
import WasmEngine.Linking.ConstantExpression

/-!
# Instantiation

A module and entities for its imports become an instance: everything is checked and computed before
the first byte of a shared memory or the first element of a shared table is written, so a link error
leaves the store as it was. A start function that traps leaves what was written in place.
-/
namespace WasmEngine
set_option autoImplicit false

structure EngineConfig where
  /-- The ceiling of memories that the module defines, in pages. -/
  pagesLimit : Nat := defaultPagesLimit
  /-- The ceiling of tables that the module defines. -/
  elementsLimit : Nat := defaultElementsLimit
  instrumentation : Instrumentation := {}
  /-- The receiver of memory accesses, and of instructions if they are traced. -/
  tracer : Option Nat := none
  traceInstructions : Bool := false
  deriving Inhabited

namespace EngineConfig

variable (c : EngineConfig)

/-- Instructions are traced: that takes a tracer. -/
def traces : Bool := c.traceInstructions && c.tracer.isSome

/-- Functions are looked at for instrumentation. -/
def instruments : Bool := c.instrumentation.listener.isSome || c.traces

def coverageOf (name : String) : Option CoverageMode :=
  if c.instrumentation.listener.isSome && c.instrumentation.selects name then
    some c.instrumentation.mode
  else none

/-- The instrumented body of a function, if it is selected for coverage or tracing. -/
def instrument? (name : String) (code : Code) : Option InstrumentedCode :=
  let coverage := c.coverageOf name
  let trace := c.traces && c.instrumentation.selects name
  if coverage.isNone && !trace then none
  else some (.wrap code (ProbeSite.select code coverage trace (Graph.build code)))

end EngineConfig

namespace Entity

def callee? : Entity → Option (Callee × FuncType)
  | .function callee type => some (callee, type)
  | _ => none

def tableAddr? : Entity → Option TableAddr
  | .table address => address
  | _ => none

def memoryAddr? : Entity → Option MemoryAddr
  | .memory address => address
  | _ => none

def globalAddr? : Entity → Option GlobalAddr
  | .global address => address
  | _ => none

end Entity

namespace Module

variable (m : Module)

/-- The globals among the entities for the imports, which constant expressions may read. -/
def importedGlobals (s : Store) (entities : List Entity) : List Global :=
  entities.filterMap fun e => e.globalAddr?.bind (s.globals[·]?)

def initialGlobals (imported : List Global) : Except LinkError (List Global) :=
  m.globals.mapM fun g => do
    return ⟨← evalConstant imported g.type.valType g.init, g.type⟩

/-- The declared tables, if none exceeds the ceiling. -/
def newTables (limit : Nat) : Except LinkError (List Table) :=
  m.tables.mapM fun l =>
    if limit < l.min then .error (.tableLimit limit) else .ok (.create l limit)

/-- The declared memories, if none exceeds the ceiling. -/
def newMemories (limit : Nat) : Except LinkError (List Memory) :=
  m.memories.mapM fun l =>
    if Nat.min limit addressablePages < l.min then .error (.memoryLimit (limit * pageSize))
    else .ok (.create l limit)

def importedFunctions (entities : List Entity) : List FunctionInstance :=
  (entities.filterMap Entity.callee?).mapIdx fun index (callee, type) =>
    { type, name := m.functionName index, index, body := .imported callee }

def definedFunctions (config : EngineConfig) (firstIndex : Nat) : List FunctionInstance :=
  m.functions.mapIdx fun k f =>
    let index := firstIndex + k
    let name := m.functionName index
    { type := m.types.getD f.type {}, name, index
      body := .defined f.code (config.instrument? name f.code) }

/-- What an export of a new instance refers to. -/
def exportedEntity (id : InstanceId) (i : ModuleInstance) (e : Export) : Entity :=
  match e.kind with
  | .function => .function (.guest ⟨id, e.index⟩) (((i.functions[e.index]?).map (·.type)).getD {})
  | .table => .table i.tables[e.index]?
  | .memory => .memory i.memories[e.index]?
  | .global => .global i.globals[e.index]?

/-- The exports by name, the last one of a name counting. -/
def exportMap (id : InstanceId) (i : ModuleInstance) : List (String × Entity) :=
  m.exports.foldl (fun map e => assign e.name (exportedEntity id i e) map) []

end Module

def FunctionInstance.probeCount? (f : FunctionInstance) : Option Nat :=
  match f.body with
  | .defined _ (some code) => some code.probes.size
  | _ => none

/-- A store with a new instance in it, not yet initialized. -/
structure Allocation where
  store : Store
  id : InstanceId
  inst : ModuleInstance
  deriving Inhabited

/-- Allocates an instance for a module and conforming entities. -/
def allocate (s : Store) (m : Module) (entities : List Entity) (config : EngineConfig) :
    Except LinkError Allocation := do
  m.checkImports s entities
  let globals ← m.initialGlobals (Module.importedGlobals s entities)
  let tables ← m.newTables config.elementsLimit
  let memories ← m.newMemories config.pagesLimit
  let id := s.instances.size
  let imported := m.importedFunctions entities
  let inst : ModuleInstance := {
    module := m
    functions := (imported ++ m.definedFunctions config imported.length).toArray
    tables := entities.filterMap Entity.tableAddr? ++ List.range' s.tables.size tables.length
    memories :=
      entities.filterMap Entity.memoryAddr? ++ List.range' s.memories.size memories.length
    globals := (entities.filterMap Entity.globalAddr? ++
      List.range' s.globals.size globals.length).toArray
    listener := config.instrumentation.listener
    tracer := config.tracer }
  let inst := { inst with exports := m.exportMap id inst }
  let store : Store := {
    globals := s.globals ++ globals.toArray
    tables := s.tables ++ tables.toArray
    memories := s.memories ++ memories.toArray
    instances := s.instances.push inst }
  return { store, id, inst }

/-- What the engine tells its loggers about a new instance. -/
def Allocation.notices (a : Allocation) (config : EngineConfig) : List Notice :=
  let instrumented := a.inst.functions.toList.filterMap fun f =>
    f.probeCount?.map fun n => (f.name, n)
  (instrumented.map fun (name, n) => .functionInstrumented name n) ++
    (if config.instruments then
      [.functionsInstrumented instrumented.length a.inst.module.functions.length]
    else []) ++
    [.instanceAllocated a.inst.functions.size a.inst.globals.size a.inst.tables.length
      a.inst.memories.length]

/-- Where the segments of a module go. -/
structure Placement where
  data : List (Nat × List UInt8)
  elements : List (Nat × List Nat)
  deriving Inhabited

/-- The offset of a segment of `count` items, if it fits into `size` places. An entity that does not
exist has no place, not even for an empty segment. The end of the segment is that of the sum of
64-bit words, since the offset in a well-formed cell leaves room for the count. -/
def segmentOffset (imported : List Global) (offset : ConstantExpression) (count : Nat)
    (size : Option Nat) (failure : LinkError) : Except LinkError Nat := do
  let offset := (← evalConstant imported .i32 offset).toNat
  if size.any (offset + count ≤ ·) then return offset else .error failure

/-- Places the segments of a new instance: data first, then elements. -/
def Allocation.place (a : Allocation) (imported : List Global) : Except LinkError Placement := do
  let memorySize := (a.inst.memories.head?.bind (a.store.memories[·]?)).map (·.size)
  let tableSize := (a.inst.tables.head?.bind (a.store.tables[·]?)).map (·.size)
  let data ← a.inst.module.data.mapM fun d => do
    return (← segmentOffset imported d.offset d.bytes.length memorySize .dataOutOfBounds, d.bytes)
  let elements ← a.inst.module.elements.mapM fun e => do
    return (← segmentOffset imported e.offset e.functions.length tableSize .elementsOutOfBounds,
      e.functions)
  return { data, elements }

/-- Writes the segments, in order. -/
def Placement.write (p : Placement) (id : InstanceId) (memory : Option MemoryAddr)
    (table : Option TableAddr) (s : Store) : Store :=
  let s := match memory with
    | some a => p.data.foldl (fun s d => s.updateMemory a (·.writeBytes d.1 d.2)) s
    | none => s
  match table with
  | some a =>
    p.elements.foldl
      (fun s e => s.updateTable a (·.write e.1 (e.2.map fun f => { target := ⟨id, f⟩ }))) s
  | none => s

/-- Marks the elements written by the segments as keeping their instance alive. -/
def Placement.retain (p : Placement) (table : Option TableAddr) (s : Store) : Store :=
  match table with
  | some a => p.elements.foldl (fun s e => s.updateTable a (·.retain e.1 e.2.length)) s
  | none => s

/-- Runs the start function of a new instance in a context of its own. If it traps, elements of an
imported table keep the instance alive. -/
def runStart (env : Environment) (fuel : Nat) (a : Allocation) (p : Placement) (start : Nat)
    (m : Machine) : Option (Except InstantiationError InstanceId × Machine) :=
  let context := m.context
  match execute env fuel ⟨a.id, start⟩ [] (m.withContext {}) with
  | none => none
  | some (.trap kind, m) =>
    let name := ((a.inst.functions[start]?).map (·.name)).getD ""
    let m := (m.withContext context).emit (.notice (.startTrapped name kind))
    let m := if a.inst.module.importCount .table ≠ 0 then
        m.updateStore (p.retain a.inst.tables.head?)
      else m
    some (.error (.startTrapped kind), m)
  | some (_, m) => some (.ok a.id, m.withContext context)

def Machine.notify (m : Machine) (notices : List Notice) : Machine :=
  notices.foldl (fun m n => m.emit (.notice n)) m

/-- Instantiates a module with entities in the order of its import section. -/
def instantiate (env : Environment) (fuel : Nat) (module : Module) (entities : List Entity)
    (config : EngineConfig) (m : Machine) :
    Option (Except InstantiationError InstanceId × Machine) :=
  match allocate m.store module entities config with
  | .error e => some (.error (.link e), m)
  | .ok a =>
    let imported := Module.importedGlobals m.store entities
    let m := m.notify (a.notices config)
    match a.place imported with
    | .error e => some (.error (.link e), m)
    | .ok p =>
      let m := m.updateStore fun _ =>
        p.write a.id a.inst.memories.head? a.inst.tables.head? a.store
      match module.start with
      | none => some (.ok a.id, m)
      | some start => runStart env fuel a p start m

/-- Instantiates a module with the entities that a set provides. -/
def instantiateFrom (env : Environment) (fuel : Nat) (module : Module) (set : Imports)
    (config : EngineConfig) (m : Machine) :
    Option (Except InstantiationError InstanceId × Machine) :=
  let notices := module.resolutionNotices m.store set
  match module.resolveImports m.store set with
  | .error e => some (.error (.link e), m.notify notices)
  | .ok entities => instantiate env fuel module entities config (m.notify notices)

end WasmEngine
