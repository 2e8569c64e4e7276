import WasmEngine.Pattern.Token

/-!
# Reading a pattern

Builds the structure of a pattern from its tokens, from left to right, with one level for every
open parenthesis. A quantifier applies to the atom before it, never to an assertion; a question mark
right after a quantifier makes it prefer fewer repetitions. A back reference needs a closed group.
-/
namespace WasmEngine
set_option autoImplicit false

namespace Pattern

/-- What the last item of a sequence allows. -/
inductive Follow where
  /-- No atom stands before: a quantifier is refused. -/
  | nothing
  | atom
  /-- A quantifier stands before: a question mark belongs to it. -/
  | quantified
  deriving DecidableEq, Inhabited

/-- A part of a pattern and its weight: the number of states an automaton needs for one copy. -/
structure Item where
  node : Node
  weight : Nat := 1
  deriving Inhabited

/-- An open parenthesis, or the whole pattern. -/
structure Level where
  /-- The parenthesis and, for a capturing one, the number of its group. -/
  paren : Paren := .plain
  group : Nat := 0
  /-- The finished alternatives, last first. -/
  alternatives : List Item := []
  /-- The items of the current alternative, last first. -/
  items : List Item := []
  follow : Follow := .nothing
  deriving Inhabited

namespace Level

/-- Adds an item after which a quantifier is allowed or not. -/
def add (l : Level) (item : Item) (follow : Follow) : Level :=
  { l with items := item :: l.items, follow }

/-- The current alternative, which ends in a state of its own. -/
def sequence (l : Level) : Item :=
  l.items.foldl (fun rest item => ⟨.seq item.node rest.node, item.weight + rest.weight⟩)
    { node := .empty }

def split (l : Level) : Level :=
  { l with alternatives := l.sequence :: l.alternatives, items := [], follow := .nothing }

/-- The alternatives as one item, tried from left to right. A choice takes a state where it begins
and one where it ends. -/
def item (l : Level) : Item :=
  l.alternatives.foldl
    (fun rest first => ⟨.alt first.node rest.node, first.weight + rest.weight + 2⟩) l.sequence

/-- Makes the last quantifier prefer fewer repetitions. -/
def relax (l : Level) : Level :=
  match l.items with
  | ⟨.rep body least extra _, weight⟩ :: items =>
    { l with items := ⟨.rep body least extra false, weight⟩ :: items, follow := .atom }
  | _ => l

end Level

/-- The state of the reading: the open levels, innermost first, the number of groups so far and the
number of automaton states made so far. A counted repetition copies its body and keeps the model
from which it copies. -/
structure Progress where
  level : Level := {}
  outer : List Level := []
  groups : Nat := 0
  states : Nat := 0
  deriving Inhabited

namespace Progress

/-- Adds an item made of one state. -/
def add (p : Progress) (node : Node) (follow : Follow) : Progress :=
  { p with level := p.level.add { node } follow, states := p.states + 1 }

/-- Applies a quantifier to the last item; `weight` is the weight of the result, and `made` the
number of new states, each from the weight of the item. -/
def quantify (p : Progress) (least : Nat) (extra : Option Nat) (weight made : Nat → Nat) :
    Option Progress :=
  match p.level.follow, p.level.items with
  | .nothing, _ => none
  | _, ⟨node, w⟩ :: items =>
    some { p with
      level := { p.level with
        items := ⟨.rep node least extra true, weight w⟩ :: items, follow := .quantified }
      states := p.states + made w }
  | _, [] => none

/-- Applies a counted repetition, which is made of copies. -/
def count (p : Progress) (least : Nat) (extra : Option Nat) (weight : Nat → Nat) :
    Option Progress :=
  p.quantify least extra weight weight

/-- A back reference may not point to a group that is not finished. -/
def isOpen (p : Progress) (group : Nat) : Bool :=
  (p.level :: p.outer).any fun l => l.paren == .capture && l.group == group

def close (p : Progress) : Option Progress :=
  match p.outer with
  | [] => none
  | l :: outer =>
    let ⟨body, weight⟩ := p.level.item
    let close (node : Node) (follow : Follow) (made : Nat) : Progress :=
      { p with level := l.add ⟨node, weight + made⟩ follow, outer, states := p.states + 1 + made }
    match p.level.paren with
    | .plain => some (close body .atom 1)
    | .capture => some (close (.group p.level.group body) .atom 2)
    | .look negated => some (close (.look negated body) .nothing 2)

def step (p : Progress) : Token → Option Progress
  | .set s => some (p.add (.bytes s) .atom)
  | .lineStart => some (p.add .lineStart .nothing)
  | .lineEnd => some (p.add .lineEnd .nothing)
  | .wordBoundary negated => some (p.add (.wordBoundary negated) .nothing)
  | .backref n => if p.groups < n || p.isOpen n then none else some (p.add (.backref n) .atom)
  | .opening paren =>
    let groups := if paren = .capture then p.groups + 1 else p.groups
    some { p with level := { paren, group := groups }, outer := p.level :: p.outer, groups }
  | .closing => p.close
  | .bar => some { p with level := p.level.split, states := p.states + 3 }
  | .star => p.quantify 0 none (· + 1) fun _ => 1
  | .plus => p.quantify 1 none (· + 1) fun _ => 1
  | .question =>
    if p.level.follow = .quantified then some { p with level := p.level.relax }
    else p.quantify 0 (some 1) (· + 2) fun _ => 2
  | .counted least none => p.count least none fun w => (least + 1) * w + 2
  | .counted least (some most) =>
    if most < least then none
    else p.count least (some (most - least)) fun w => most * w + (most - least) + 2

end Progress

/-- The largest automaton a pattern may need. -/
def maxStates : Nat := 100000

/-- The structure of a pattern text, if the text is well formed and not too large. Four states
belong to the whole: its begin, the end of its last alternative, its end and the final state. -/
def parse? (text : List UInt8) : Option Node := do
  let progress ← (← tokens? text).foldlM Progress.step {}
  if progress.outer.isEmpty && progress.states + 4 ≤ maxStates then
    some progress.level.item.node
  else none

end Pattern

end WasmEngine
