import WasmEngine.ControlFlow.Graph

/-!
# Probes

Places in a body that report when they are executed, and the body in which the instructions at
those places are replaced by probes. A probe keeps the instruction it replaces, so the instrumented
body has the same length and all branch targets stay valid.
-/
namespace WasmEngine
set_option autoImplicit false

inductive CoverageMode where
  /-- Every executed offset. -/
  | offsets
  /-- Every transition between blocks. -/
  | edges
  deriving DecidableEq, Inhabited

/-- The reports of a probe, one bit each. -/
abbrev ProbeFlags := UInt8

namespace ProbeFlags

/-- Report the offset to the listener. -/
def offset : ProbeFlags := 1

/-- Report the edge into the block that begins here to the listener. -/
def blockEntry : ProbeFlags := 2

/-- Report the instruction to the tracer. -/
def trace : ProbeFlags := 4

/-- The report is among those asked for. -/
def has (flags report : ProbeFlags) : Bool := flags &&& report != 0

end ProbeFlags

structure ProbeSite where
  offset : Nat
  flags : ProbeFlags
  /-- The block that begins here, if its entry is reported. -/
  block : BlockId
  deriving DecidableEq, Inhabited

/-- A probe and the instruction it replaces. -/
structure Probe where
  offset : Nat
  flags : ProbeFlags
  block : BlockId
  replaced : Instruction
  deriving DecidableEq, Inhabited

structure InstrumentedCode where
  instructions : Array Instruction
  probes : Array Probe
  deriving DecidableEq, Inhabited

namespace ProbeSite

/-- The site at an offset of a body, if anything is reported there. -/
def at? (coverage : Option CoverageMode) (trace : Bool) (g : Graph) (offset : Nat) :
    Option ProbeSite :=
  let entered := if coverage = some .edges then g.blocks.find? (·.start == offset) else none
  let flags : ProbeFlags :=
    (if coverage = some .offsets then ProbeFlags.offset else 0) |||
      (if entered.isSome then ProbeFlags.blockEntry else 0) |||
      (if trace then ProbeFlags.trace else 0)
  if flags = 0 then none else some ⟨offset, flags, (entered.map (·.id)).getD 0⟩

/-- The sites of a body, by increasing offset: every instruction when offsets or instructions are
reported, the first instruction of every block when only edges are. -/
def select (code : Code) (coverage : Option CoverageMode) (trace : Bool) (g : Graph) :
    List ProbeSite :=
  (List.range code.size).filterMap (at? coverage trace g)

end ProbeSite

namespace InstrumentedCode

def addProbe (body : InstrumentedCode) (site : ProbeSite) : InstrumentedCode where
  instructions := body.instructions.setIfInBounds site.offset (.probe body.probes.size)
  probes := body.probes.push
    ⟨site.offset, site.flags, site.block, body.instructions.getD site.offset .unreachable⟩

/-- The body with a probe at every site, the probes in site order. -/
def wrap (code : Code) (sites : List ProbeSite) : InstrumentedCode :=
  sites.foldl addProbe ⟨code.instructions, #[]⟩

end InstrumentedCode

end WasmEngine
