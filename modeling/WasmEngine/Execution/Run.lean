import WasmEngine.Execution.Step
import WasmEngine.Execution.Host

/-!
# Execution

Calls of functions. Fuel bounds the number of instructions of a frame and the nesting of calls; it
is a device of the definition only, and an answer does not depend on it. Fuel exhaustion is `none`,
never a partial result.
-/
namespace WasmEngine
set_option autoImplicit false

abbrev Invoke := FunctionRef → List Cell → Machine → Option (ExecutionResult × Machine)

/-- Runs a host program; a call of a function goes through `invoke`. -/
def runHost (invoke : Invoke) :
    HostProgram → Machine → Option (Except Failure ExecutionResult × Machine)
  | .finish result, m => some (.ok result, m)
  | .fail failure, m => some (.error failure, m)
  | .inspect next, m => runHost invoke (next m) m
  | .update change next, m => runHost invoke next (change m)
  | .call .same target arguments next, m =>
    match invoke target arguments m with
    | none => none
    | some (result, m) => runHost invoke (next result) m
  | .call .fresh target arguments next, m =>
    let context := m.context
    match invoke target arguments (m.withContext {}) with
    | none => none
    | some (result, m) => runHost invoke (next result) (m.withContext context)

/-- Runs a host function to its end; a failure becomes a trap and a notice. -/
def callHost (invoke : Invoke) (program : HostProgram) (m : Machine) :
    Option (ExecutionResult × Machine) :=
  match runHost invoke program m with
  | none => none
  | some (.ok result, m) => some (result, m)
  | some (.error failure, m) => some (.trap .host, m.emit (.notice (.hostFailed failure)))

/-- The code that a frame runs, fixed when the frame is entered. -/
structure Running where
  inst : InstanceId
  name : String
  code : Code
  /-- The instructions, some of them probes. -/
  instructions : Array Instruction
  probes : Array Probe
  returns : Bool
  deriving Inhabited

/-- The changing part of a frame: where it is, its locals and operands, and the block it entered
last. -/
structure FrameState where
  pc : Nat
  frame : Frame
  previous : BlockId
  deriving Inhabited

/-- The block before the first one of a frame. -/
def entryBlock : BlockId := 4294967295

namespace Running

/-- The frame in which a function defined by a module runs. -/
def ofFunction (inst : InstanceId) (f : FunctionInstance) (code : Code)
    (instrumented : Option InstrumentedCode) : Running where
  inst := inst
  name := f.name
  code := code
  instructions := (instrumented.map (·.instructions)).getD code.instructions
  probes := (instrumented.map (·.probes)).getD #[]
  returns := !f.type.outputs.isEmpty

variable (r : Running)

def result (frame : Frame) : ExecutionResult := if r.returns then .value frame.peek else .void

/-- The probe at an offset, if the instruction there is one. -/
def probe? (pc : Nat) : Option Probe :=
  match r.instructions[pc]? with
  | some (.probe index) => r.probes[index]?
  | _ => none

/-- The instruction that runs at an offset: behind a probe, the one it replaces. Past the end of
the body the function returns. -/
def instruction (pc : Nat) : Instruction :=
  match r.probe? pc with
  | some probe => probe.replaced
  | none => r.instructions.getD pc .return_

end Running

/-- Reports the probe at the place of a frame, if there is one. -/
def reportAt (obs : Observers) (r : Running) (s : FrameState) (m : Machine) :
    FrameState × Machine :=
  match r.probe? s.pc with
  | none => (s, m)
  | some probe =>
    let previous := if probe.flags.has ProbeFlags.blockEntry then probe.block else s.previous
    ({ s with previous }, m.reportProbe obs r.inst r.name probe s.previous)

/-- The frame after a call has ended without aborting it: the arguments are replaced by the result.
A trap without a reason leaves them in place. -/
def afterCall (type : FuncType) (frame : Frame) : ExecutionResult → Frame
  | .void => frame.drop type.inputs.length
  | .value c => (frame.drop type.inputs.length).push c
  | .trap _ => frame

/-- A result of a call aborts the caller, with the same reason. -/
def aborts : ExecutionResult → Option TrapKind
  | .trap .none => none
  | .trap kind => some kind
  | _ => none

/-- Runs a frame until the function returns or traps, for at most the given number of
instructions. -/
def runFrame (env : Environment) (invoke : Invoke) (r : Running) :
    Nat → FrameState → Machine → Option (ExecutionResult × Machine)
  | 0, _, _ => none
  | fuel + 1, s, m =>
    match m.context.charge with
    | (false, context) => some (.trap .outOfTicks, m.withContext context)
    | (true, context) =>
      let (⟨pc, frame, previous⟩, m) := reportAt env.toObservers r s (m.withContext context)
      match step env.toObservers r.inst r.code (r.instruction pc) (pc + 1) frame m with
      | .goto target frame m => runFrame env invoke r fuel ⟨target, frame, previous⟩ m
      | .leave frame m => some (r.result frame, m)
      | .trap kind m => some (.trap kind, m)
      | .call target type frame m =>
        match invoke target (frame.topmost type.inputs.length) m with
        | none => none
        | some (result, m) =>
          match aborts result with
          | some kind => some (.trap kind, m)
          | none =>
            runFrame env invoke r fuel ⟨pc + 1, afterCall type frame result, previous⟩ m

/-- Calls a function. The depth is checked first, then the interrupt flag; the frame is counted
while the function runs, whatever it is. -/
def execute (env : Environment) : Nat → Invoke
  | 0, _, _, _ => none
  | fuel + 1, target, arguments, m =>
    if callStackLimit ≤ m.context.depth then some (.trap .callStackExhausted, m)
    else if m.interruptRequested then some (.trap .interrupted, m)
    else
      let answer : Option (ExecutionResult × Machine) := match m.store.function? target with
        | none => some (.trap .undefinedElement, m.enter)
        | some f =>
          match f.body with
          | .imported (.guest next) => execute env fuel next arguments m.enter
          | .imported (.host id _) =>
            callHost (execute env fuel) (env.host id ⟨target, arguments⟩) m.enter
          | .defined code instrumented =>
            runFrame env (execute env fuel) (.ofFunction target.inst f code instrumented) fuel
              ⟨0, .enter arguments code.locals.length code.maxHeight, entryBlock⟩ m.enter
      answer.map fun (result, m) => (result, m.leave)

end WasmEngine
