import WasmEngine.Store
import WasmEngine.Instruction.Opcode
import WasmEngine.Execution.Journal

/-!
# Machine states

The state that calls work on: the store, the context of the running call chain, the interrupt flag
of the embedder and the journal.
-/
namespace WasmEngine
set_option autoImplicit false

/-- No frame is entered at this depth. -/
def callStackLimit : Nat := 2048

/-- What a chain of calls carries along. -/
structure Context where
  depth : Nat := 0
  /-- Every instruction costs a tick and counts as a step. -/
  metering : Bool := false
  ticks : Int64 := Int64.maxValue
  steps : UInt64 := 0
  /-- The chain watches the interrupt flag. -/
  interruptible : Bool := false
  deriving DecidableEq, Inhabited

namespace Context

/-- Charges one instruction. The charge for which no tick is left is taken too, but not counted as
a step. -/
def charge (c : Context) : Bool × Context :=
  if c.metering then
    let ticks := c.ticks - 1
    if ticks < 0 then (false, { c with ticks })
    else (true, { c with ticks, steps := c.steps + 1 })
  else (true, c)

end Context

structure Machine where
  store : Store := {}
  context : Context := {}
  interruptFlag : Bool := false
  journal : Array Event := #[]
  deriving Inhabited

namespace Machine

def interruptRequested (m : Machine) : Bool := m.context.interruptible && m.interruptFlag

def emit (m : Machine) (e : Event) : Machine := { m with journal := m.journal.push e }

@[inline] def updateStore (m : Machine) (f : Store → Store) : Machine :=
  { m with store := f m.store }

def withContext (m : Machine) (context : Context) : Machine := { m with context }

def enter (m : Machine) : Machine := { m with context.depth := m.context.depth + 1 }

/-- Leaves a call. The depth counts the open calls and stops at zero, where a depth that a host
function has lowered would go below. -/
def leave (m : Machine) : Machine := { m with context.depth := m.context.depth - 1 }

variable (obs : Observers)

/-- Reports coverage of a function. A failing listener is noted and does not reach the guest. -/
def reportCoverage (m : Machine) (function : String) (listener : Nat) (e : CoverageEvent) :
    Machine :=
  let m := m.emit (.coverage listener e)
  match obs.listener listener e with
  | none => m
  | some failure => m.emit (.notice (.callbackFailed function failure))

def reportInstruction (m : Machine) (function : String) (tracer offset opcode : Nat) : Machine :=
  let e := .instruction function offset opcode
  let m := m.emit (.trace tracer e)
  match obs.tracer tracer e with
  | none => m
  | some failure => m.emit (.notice (.callbackFailed function failure))

/-- Reports a memory access to the tracer of an instance, if it has one. -/
def reportAccess (m : Machine) (i : InstanceId) (kind : AccessKind) (address width : Nat) :
    Machine :=
  match (m.store.instances[i]?).bind (·.tracer) with
  | none => m
  | some tracer =>
    let e := .access kind address width
    let m := m.emit (.trace tracer e)
    match obs.tracer tracer e with
    | none => m
    | some failure => m.emit (.notice (.tracerFailed failure))

/-- Reports a probe of a function: the instruction to the tracer, then the offset and the edge from
the block entered before to the listener. -/
def reportProbe (m : Machine) (i : InstanceId) (function : String) (probe : Probe)
    (previous : BlockId) : Machine :=
  let listener := (m.store.instances[i]?).bind (·.listener)
  let m := match (m.store.instances[i]?).bind (·.tracer) with
    | some tracer =>
      if probe.flags.has ProbeFlags.trace then
        m.reportInstruction obs function tracer probe.offset probe.replaced.opcode
      else m
    | none => m
  match listener with
  | none => m
  | some listener =>
    let m := if probe.flags.has ProbeFlags.offset then
        m.reportCoverage obs function listener (.offset function probe.offset)
      else m
    if probe.flags.has ProbeFlags.blockEntry then
      m.reportCoverage obs function listener (.edge function previous probe.block)
    else m

end Machine

end WasmEngine
