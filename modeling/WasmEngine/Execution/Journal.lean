import WasmEngine.Trap
import WasmEngine.Types
import WasmEngine.Logging

/-!
# The journal of a run

What a run reports besides its result: coverage to listeners, instructions and memory accesses to
tracers, and notices to the loggers, in the order in which they happen.
-/
namespace WasmEngine
set_option autoImplicit false

/-- How foreign code failed: with a description, or with something that has none. -/
inductive Failure where
  | described (text : String)
  | undescribed
  deriving DecidableEq, Inhabited

def Failure.text : Failure → String
  | .described s => s
  | .undescribed => "unknown exception"

inductive CoverageEvent where
  | offset (function : String) (offset : Nat)
  | edge (function : String) (source target : Nat)
  deriving DecidableEq, Inhabited

inductive AccessKind where
  | read
  | write
  deriving DecidableEq, Inhabited

/-- A trace report: an instruction about to run, or an access to memory about to be checked. -/
inductive TraceEvent where
  | instruction (function : String) (offset opcode : Nat)
  | access (kind : AccessKind) (address width : Nat)
  deriving DecidableEq, Inhabited

/-- What the engine tells its loggers. -/
inductive Notice where
  | importResolved (name : String) (kind : EntityKind)
  | functionInstrumented (name : String) (probes : Nat)
  | functionsInstrumented (count total : Nat)
  | instanceAllocated (functions globals tables memories : Nat)
  | startTrapped (function : String) (kind : TrapKind)
  | callbackFailed (function : String) (failure : Failure)
  | tracerFailed (failure : Failure)
  | hostFailed (failure : Failure)
  deriving DecidableEq, Inhabited

namespace Notice

def tag : Notice → String
  | .importResolved _ _ | .functionsInstrumented _ _ | .instanceAllocated _ _ _ _
  | .startTrapped _ _ => "instantiate"
  | .functionInstrumented _ _ => "instrument"
  | .callbackFailed _ _ | .tracerFailed _ | .hostFailed _ => "execute"

def level : Notice → LogLevel
  | .importResolved _ _ | .functionInstrumented _ _ | .functionsInstrumented _ _
  | .instanceAllocated _ _ _ _ => .debug
  | .callbackFailed _ _ | .tracerFailed _ => .warn
  | .startTrapped _ _ | .hostFailed _ => .error

def text : Notice → String
  | .importResolved name kind => s!"resolved import {name} (" ++ kind.name ++ ")"
  | .functionInstrumented name probes => s!"instrumented {name} with {probes} probes"
  | .functionsInstrumented count total => s!"instrumented {count} of {total} functions"
  | .instanceAllocated functions globals tables memories =>
    s!"allocated instance: {functions} functions, {globals} globals, {tables} tables, " ++
      s!"{memories} memories"
  | .startTrapped function kind => s!"start function {function} trapped: " ++ kind.message
  | .callbackFailed function failure =>
    s!"instrumentation callback failed in {function}: " ++ failure.text
  | .tracerFailed failure => "memory access tracer failed: " ++ failure.text
  | .hostFailed failure => "host function failed: " ++ failure.text

end Notice

/-- An entry of the journal. Listeners and tracers are named by number. -/
inductive Event where
  | coverage (listener : Nat) (event : CoverageEvent)
  | trace (tracer : Nat) (event : TraceEvent)
  | notice (notice : Notice)
  deriving DecidableEq, Inhabited

/-- How listeners and tracers take a report: with a failure or without. -/
structure Observers where
  listener : Nat → CoverageEvent → Option Failure := fun _ _ => none
  tracer : Nat → TraceEvent → Option Failure := fun _ _ => none

end WasmEngine
