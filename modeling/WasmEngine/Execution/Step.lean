import WasmEngine.Frame
import WasmEngine.Execution.Machine

/-!
# One instruction

The effect of an instruction on its frame and the machine. Validated code never misses a memory, a
table, a global or a branch table; where one is missing it counts as empty or as zero, so the
definition is total.
-/
namespace WasmEngine
set_option autoImplicit false

/-- What comes after an instruction. -/
inductive Outcome where
  | goto (pc : Nat) (frame : Frame) (m : Machine)
  /-- The function returns; its result, if it has one, is the topmost operand. -/
  | leave (frame : Frame) (m : Machine)
  | trap (kind : TrapKind) (m : Machine)
  /-- A function is called with its arguments on top of the operands. -/
  | call (target : FunctionRef) (type : FuncType) (frame : Frame) (m : Machine)

namespace Outcome

/-- Takes a branch: the flag is polled once the target is reached. -/
def branch (target : BranchTarget) (arity : Nat) (frame : Frame) (m : Machine) : Outcome :=
  if m.interruptRequested then .trap .interrupted m
  else .goto target.offset (frame.unwind target.drop arity) m

/-- Goes on with the result of a numeric operation on top. -/
def ofNumeric (next : Nat) (frame : Frame) (m : Machine) : Except TrapKind Cell → Outcome
  | .ok c => .goto next (frame.setTop c) m
  | .error kind => .trap kind m

end Outcome

/-- The target of a branch table for a selector: the default for every selector past the cases. -/
def selectTarget (targets : List BranchTarget) (selector : Nat) : Option BranchTarget :=
  if selector < targets.length - 1 then targets[selector]? else targets.getLast?

/-- The effect of a load at the address on top of the frame. -/
def stepLoad (obs : Observers) (i : InstanceId) (op : LoadOp) (offset next : Nat) (frame : Frame)
    (m : Machine) : Outcome :=
  let address := frame.peek.index + offset
  let m := m.reportAccess obs i .read address op.width
  match (m.store.memoryOf? i).bind (m.store.memories[·]?) with
  | some memory =>
    if memory.inBounds address op.width then
      .goto next (frame.setTop (op.decode (memory.read address op.width))) m
    else .trap .memoryOutOfBounds m
  | none => .trap .memoryOutOfBounds m

/-- The effect of a store of the topmost operand at the address below it. -/
def stepStore (obs : Observers) (i : InstanceId) (op : StoreOp) (offset next : Nat) (frame : Frame)
    (m : Machine) : Outcome :=
  let value := frame.peek
  let address := (frame.operand 1).index + offset
  let m := m.reportAccess obs i .write address op.width
  match m.store.memoryOf? i with
  | some a =>
    if (m.store.memories[a]?).any (·.inBounds address op.width) then
      .goto next (frame.drop 2)
        (m.updateStore (·.updateMemory a (·.write address op.width value.toNat)))
    else .trap .memoryOutOfBounds m
  | none => .trap .memoryOutOfBounds m

/-- The effect of an indirect call through table 0: the element must exist, be set and have the
expected type, in this order. -/
def stepCallIndirect (i : InstanceId) (type : Nat) (frame : Frame) (m : Machine) : Outcome :=
  let index := frame.peek.index
  let elements := ((m.store.tableOf? i).bind (m.store.tables[·]?)).map (·.elements)
  match elements.bind (·[index]?) with
  | none => .trap .undefinedElement m
  | some none => .trap .uninitializedElement m
  | some (some element) =>
    let actual := (m.store.function? element.target).map (·.type)
    let expected := (m.store.instances[i]?).bind (·.module.types[type]?)
    if expected = actual then .call element.target (actual.getD {}) (frame.drop 1) m
    else .trap .indirectCallTypeMismatch m

/-- The effect of the instruction before `next` in a frame of the instance `i`. -/
def step (obs : Observers) (i : InstanceId) (code : Code) (instr : Instruction) (next : Nat)
    (frame : Frame) (m : Machine) : Outcome :=
  match instr with
  | .unreachable => .trap .unreachable m
  | .nop | .block | .loop | .probe _ => .goto next frame m
  | .if_ otherwise =>
    .goto (if frame.peek.isTrue then next else otherwise) (frame.drop 1) m
  | .else_ resume => .goto resume frame m
  | .end_ => if next = code.size then .leave frame m else .goto next frame m
  | .br target arity => .branch target arity frame m
  | .brIf target arity =>
    if frame.peek.isTrue then .branch target arity (frame.drop 1) m
    else .goto next (frame.drop 1) m
  | .brTable table arity =>
    match selectTarget (code.branchTable table) frame.peek.index with
    | some target => .branch target arity (frame.drop 1) m
    | none => .goto next (frame.drop 1) m
  | .return_ => .leave frame m
  | .call func =>
    .call ⟨i, func⟩ (((m.store.function? ⟨i, func⟩).map (·.type)).getD {}) frame m
  | .callIndirect type => stepCallIndirect i type frame m
  | .drop => .goto next (frame.drop 1) m
  | .select =>
    let condition := frame.peek
    let second := frame.operand 1
    let frame := frame.drop 2
    .goto next (if condition.isTrue then frame else frame.setTop second) m
  | .localGet index => .goto next (frame.push (frame.localAt index)) m
  | .localSet index =>
    let c := frame.peek
    .goto next ((frame.drop 1).setLocal index c) m
  | .localTee index =>
    let c := frame.peek
    .goto next (frame.setLocal index c) m
  | .globalGet index =>
    let global := (m.store.globalOf? i index).bind (m.store.globals[·]?)
    .goto next (frame.push ((global.map (·.value)).getD 0)) m
  | .globalSet index =>
    let c := frame.peek
    let m := match m.store.globalOf? i index with
      | some a => m.updateStore (·.setGlobal a c)
      | none => m
    .goto next (frame.drop 1) m
  | .load op offset => stepLoad obs i op offset next frame m
  | .store op offset => stepStore obs i op offset next frame m
  | .memorySize =>
    let memory := (m.store.memoryOf? i).bind (m.store.memories[·]?)
    .goto next (frame.push (Cell.ofLow (BitVec.ofNat 32 ((memory.map (·.pages)).getD 0)))) m
  | .memoryGrow =>
    match m.store.memoryOf? i with
    | some a =>
      let (grown, store) := m.store.growMemory a frame.peek.index
      let m := m.updateStore fun _ => store
      .goto next (frame.setTop (Cell.ofLow (grown.elim (-1) (BitVec.ofNat 32)))) m
    | none => .goto next (frame.setTop (Cell.ofLow (-1))) m
  | .const _ value => .goto next (frame.push value) m
  | .unary op => .ofNumeric next frame m (op.eval frame.peek)
  | .binary op =>
    .ofNumeric next (frame.drop 1) m (op.eval (frame.operand 1) frame.peek)

end WasmEngine
