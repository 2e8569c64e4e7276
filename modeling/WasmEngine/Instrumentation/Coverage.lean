import Std.Data.TreeMap
import Std.Data.TreeSet
import WasmEngine.Execution.Journal

/-!
# Recorded coverage

The sets of offsets and edges that a listener was told of, by function name. Names, offsets and
edges come out in increasing order.
-/
namespace WasmEngine
set_option autoImplicit false

/-- The order of edges: by the block left, then by the block entered. -/
def edgeOrder : Nat × Nat → Nat × Nat → Ordering :=
  compareLex (compareOn Prod.fst) (compareOn Prod.snd)

structure Coverage where
  offsets : Std.TreeMap String (Std.TreeSet Nat) := ∅
  edges : Std.TreeMap String (Std.TreeSet (Nat × Nat) edgeOrder) := ∅

namespace Coverage

instance : Inhabited Coverage := ⟨{}⟩

def offsetsOf (c : Coverage) (function : String) : Std.TreeSet Nat := c.offsets.getD function ∅

def edgesOf (c : Coverage) (function : String) : Std.TreeSet (Nat × Nat) edgeOrder :=
  c.edges.getD function ∅

def record (c : Coverage) : CoverageEvent → Coverage
  | .offset f o => { c with offsets := c.offsets.insert f ((c.offsetsOf f).insert o) }
  | .edge f a b => { c with edges := c.edges.insert f ((c.edgesOf f).insert (a, b)) }

/-- The names of the functions with any coverage. -/
def functions (c : Coverage) : List String :=
  ((Std.TreeSet.ofList c.offsets.keys compare).insertMany c.edges.keys).toList

end Coverage

end WasmEngine
