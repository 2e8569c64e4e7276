import WasmEngine.Module

/-!
# Cached graphs

A family of modules that build their control-flow graphs on demand. Every module remembers which
graph object it gave out for a function; a copied or assigned module starts without any.
-/
namespace WasmEngine
set_option autoImplicit false

abbrev GraphId := Nat

/-- A module and the graphs it has given out, by position in its code section. -/
structure CachingModule where
  module : Module
  cached : List (Nat × GraphId) := []
  deriving Inhabited

/-- Modules, by position, and the graph objects built so far, by identity. -/
structure Catalog where
  modules : List CachingModule := []
  graphs : List Graph := []
  deriving Inhabited

namespace Catalog

def add (c : Catalog) (module : Module) : Catalog :=
  { c with modules := c.modules ++ [{ module }] }

def copy (c : Catalog) (source : Nat) : Catalog :=
  match c.modules[source]? with
  | some m => c.add m.module
  | none => c

/-- Replaces the module at `target` by the one at `source`, which drops its cached graphs. -/
def assign (c : Catalog) (target source : Nat) : Catalog :=
  match c.modules[source]? with
  | some m => { c with modules := c.modules.set target { module := m.module } }
  | none => c

/-- The graph object of a function defined by the module at a position: the one given out before,
or a new one. -/
def graph? (c : Catalog) (position function : Nat) : Option (GraphId × Catalog) := do
  let m ← c.modules[position]?
  let code ← m.module.code? function
  let index := function - m.module.importCount .function
  match m.cached.lookup index with
  | some id => return (id, c)
  | none =>
    let id := c.graphs.length
    return (id, {
      modules := c.modules.set position { m with cached := (index, id) :: m.cached }
      graphs := c.graphs ++ [Graph.build code] })

/-- Requests the graphs of several functions, as an instantiation with edge coverage does. -/
def request (c : Catalog) (position : Nat) (functions : List Nat) : Catalog :=
  functions.foldl (fun c f => ((c.graph? position f).map (·.2)).getD c) c

end Catalog

end WasmEngine
