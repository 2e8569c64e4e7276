import WasmEngine.Cell

/-!
# Call frames

The locals and operands of a call share one storage: an unused slot, the locals, then the operands
from the bottom up. The unused slot keeps the index of the topmost operand inside the storage when
there are neither locals nor operands.
-/
namespace WasmEngine
set_option autoImplicit false

structure Frame where
  slots : Array Cell
  localCount : Nat
  /-- The slot of the topmost operand, or of the last local if there are no operands. -/
  top : Nat
  deriving Inhabited

namespace Frame

/-- The frame of a call: the arguments and `declared` zeros as locals, no operands, and room for
`maxHeight` of them. -/
def enter (arguments : List Cell) (declared maxHeight : Nat) : Frame :=
  let locals := arguments.length + declared
  { slots := #[0] ++ arguments.toArray ++ Array.replicate (declared + maxHeight) 0
    localCount := locals
    top := locals }

variable (f : Frame)

def height : Nat := f.top - f.localCount

def slot (i : Nat) : Cell := f.slots.getD i 0

def peek : Cell := f.slot f.top

/-- The operand `n` places below the topmost. -/
def operand (n : Nat) : Cell := f.slot (f.top - n)

def setTop (f : Frame) (c : Cell) : Frame := { f with slots := f.slots.setIfInBounds f.top c }

def push (f : Frame) (c : Cell) : Frame :=
  let top := f.top + 1
  if top < f.slots.size then { f with slots := f.slots.setIfInBounds top c, top }
  else { f with slots := f.slots.push c, top }

def drop (f : Frame) (n : Nat) : Frame := { f with top := f.top - n }

def pop (f : Frame) : Cell × Frame := (f.peek, f.drop 1)

def localAt (i : Nat) : Cell := f.slot (i + 1)

def setLocal (f : Frame) (i : Nat) (c : Cell) : Frame :=
  { f with slots := f.slots.setIfInBounds (i + 1) c }

/-- Drops `n` operands, from below the topmost one if that is carried over. -/
def unwind (f : Frame) (n arity : Nat) : Frame :=
  if arity = 0 then f.drop n
  else
    let carried := f.peek
    (f.drop n).setTop carried

/-- The locals, parameters first. -/
def locals : List Cell := (List.range f.localCount).map f.localAt

/-- The operands, from the bottom up. -/
def operands : List Cell := (List.range f.height).map fun i => f.slot (f.localCount + 1 + i)

/-- The `n` topmost operands, from the bottom up. -/
def topmost (n : Nat) : List Cell := (List.range n).map fun i => f.slot (f.top + 1 - n + i)

end Frame

end WasmEngine
