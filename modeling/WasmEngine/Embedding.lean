import WasmEngine.Execution.Run
import WasmEngine.Linking.Imports

/-!
# Host functions for embedders

Small host functions from which an embedder puts its interface together: constant answers, access
to the context of the running chain, calls back into the guest and changes to the entities of the
calling instance. An argument that is missing counts as zero.
-/
namespace WasmEngine
set_option autoImplicit false

abbrev HostFunction := HostCall → HostProgram

def HostCall.argument (c : HostCall) (i : Nat) : Cell := c.arguments.getD i 0

namespace HostFunction

def constant (result : ExecutionResult) : HostFunction := fun _ => .finish result

def failing (failure : Failure) : HostFunction := fun _ => .fail failure

def computed (f : HostCall → Cell) : HostFunction := fun c => .finish (.value (f c))

def query (f : Machine → Cell) : HostFunction := fun _ => .inspect fun m => .finish (.value (f m))

def effect (f : HostCall → Machine → Machine) : HostFunction := fun c =>
  .update (f c) (.finish .void)

def argument (i : Nat) : HostFunction := computed (·.argument i)

def subtract : HostFunction :=
  computed fun c => Cell.ofLow ((c.argument 0).low - (c.argument 1).low)

def depth : HostFunction := query fun m => Cell.ofLow (BitVec.ofNat 32 m.context.depth)

def ticks : HostFunction := query fun m => m.context.ticks.toBitVec

def steps : HostFunction := query fun m => m.context.steps.toBitVec

def setTicks : HostFunction :=
  effect fun c m => m.withContext { m.context with ticks := .ofBitVec (c.argument 0) }

def setMetering (metering : Bool) : HostFunction :=
  effect fun _ m => m.withContext { m.context with metering }

def setInterrupt (interruptFlag : Bool) : HostFunction := effect fun _ m => { m with interruptFlag }

/-- Counts its calls in its private state, from one on. -/
def count : HostFunction := fun c => .inspect fun m =>
  let count := (m.store.hostState? c.self).getD 0 + 1
  .update (·.updateStore (·.setHostState c.self count))
    (.finish (.value (Cell.ofLow (BitVec.ofNat 32 count))))

/-- Calls a function of the calling instance with the same arguments. -/
def forward (scope : CallScope) (func : Nat) : HostFunction := fun c =>
  .call scope ⟨c.self.inst, func⟩ c.arguments .finish

/-- Grows an entity by the first argument; returns its previous size, or minus one. -/
def growing (address? : Store → InstanceId → Option Nat)
    (grow : Store → Nat → Nat → Option Nat × Store) : HostFunction := fun c => .inspect fun m =>
  let delta := (c.argument 0).index
  match address? m.store c.self.inst with
  | none => .finish (.value (Cell.ofLow (-1)))
  | some a =>
    let grown := (grow m.store a delta).1
    .update (·.updateStore fun s => (grow s a delta).2)
      (.finish (.value (Cell.ofLow (grown.elim (-1) (BitVec.ofNat 32)))))

def growMemory : HostFunction := growing Store.memoryOf? Store.growMemory

def growTable : HostFunction := growing Store.tableOf? Store.growTable

def setGlobal (index : Nat) : HostFunction := effect fun c m =>
  match m.store.globalOf? c.self.inst index with
  | some a => m.updateStore (·.setGlobal a (c.argument 0))
  | none => m

/-- Stores the low byte of the second argument at the address given by the first; traps outside the
memory, and fails while no memory is bound. -/
def poke (binding : MemoryBinding) : HostFunction := fun c =>
  match binding.address with
  | none => .fail (.described MemoryBinding.unboundMessage)
  | some a => .inspect fun m =>
    let address := (c.argument 0).index
    if (m.store.memories[a]?).any (·.inBounds address 1) then
      .update (·.updateStore (·.updateMemory a (·.write address 1 (c.argument 1).toNat)))
        (.finish .void)
    else .finish (.trap .host)

/-- The host functions that an embedder's interface is put together from. An argument and a
difference are computed. -/
inductive Offered : HostFunction → Prop
  | constant (result : ExecutionResult) : Offered (constant result)
  | failing (failure : Failure) : Offered (failing failure)
  | computed (f : HostCall → Cell) : Offered (computed f)
  | depth : Offered depth
  | ticks : Offered ticks
  | steps : Offered steps
  | setTicks : Offered setTicks
  | setMetering (metering : Bool) : Offered (setMetering metering)
  | setInterrupt (interruptFlag : Bool) : Offered (setInterrupt interruptFlag)
  | count : Offered count
  | forward (scope : CallScope) (func : Nat) : Offered (forward scope func)
  | growMemory : Offered growMemory
  | growTable : Offered growTable
  | setGlobal (index : Nat) : Offered (setGlobal index)
  | poke (binding : MemoryBinding) : Offered (poke binding)

end HostFunction

/-- Every host function of the environment is one that is offered. -/
def Environment.Offered (env : Environment) : Prop := ∀ id, HostFunction.Offered (env.host id)

end WasmEngine
