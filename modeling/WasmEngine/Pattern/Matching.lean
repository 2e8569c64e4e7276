import WasmEngine.Pattern.Reading

/-!
# Searching a pattern

Backtracking search for the first match, in order of preference. A repetition does not go on at a
position where it has gone on twice already, which bounds every search.
-/
namespace WasmEngine
set_option autoImplicit false

namespace Pattern

/-- The text searched and the place from which a match starts. -/
structure Subject where
  bytes : Array UInt8
  start : Nat := 0
  /-- The match does not start at the begin of the text. -/
  preceded : Bool := false
  deriving Inhabited

namespace Subject

def isWordAt (s : Subject) (i : Nat) : Bool := (s.bytes[i]?).any isWord

/-- The byte before a position counts only if the match started before it or within the text. -/
def isBoundary (s : Subject) (i : Nat) : Bool :=
  let left := (i != s.start || s.preceded) && i != 0 && s.isWordAt (i - 1)
  left != s.isWordAt i

end Subject

/-- The extents that the groups matched last, newest first. -/
abbrev Captures := List (Nat × Nat × Nat)

/-- What remains to be matched after a position. -/
abbrev Continuation := Nat → Captures → Option Captures

/-- Runs a matcher a fixed number of times. -/
def times (step : Nat → Captures → Continuation → Option Captures) :
    Nat → Nat → Captures → Continuation → Option Captures
  | 0, i, caps, k => k i caps
  | n + 1, i, caps, k => step i caps fun i caps => times step n i caps k

/-- Runs a matcher at most a number of times. -/
def upTo (step : Nat → Captures → Continuation → Option Captures) (greedy : Bool) :
    Nat → Nat → Captures → Continuation → Option Captures
  | 0, i, caps, k => k i caps
  | n + 1, i, caps, k =>
    let more (_ : Unit) := step i caps fun i caps => upTo step greedy n i caps k
    if greedy then (more ()).orElse fun _ => k i caps else (k i caps).orElse more

/-- Runs a matcher any number of times. `last` is the position of the latest round and the number
of rounds begun there. -/
def many (step : Nat → Captures → Continuation → Option Captures) (greedy : Bool) :
    Nat → Nat × Nat → Nat → Captures → Continuation → Option Captures
  | 0, _, i, caps, k => k i caps
  | n + 1, last, i, caps, k =>
    let round := if last.2 ≠ 0 ∧ last.1 = i then last.2 + 1 else 1
    let more (_ : Unit) :=
      if 2 < round then none
      else step i caps fun j caps => many step greedy n (i, round) j caps k
    if greedy then (more ()).orElse fun _ => k i caps else (k i caps).orElse more

namespace Node

/-- Matches a pattern at a position and goes on with the continuation. -/
def run (node : Node) (s : Subject) (i : Nat) (caps : Captures) (k : Continuation) :
    Option Captures :=
  match node with
  | .empty => k i caps
  | .bytes set =>
    match s.bytes[i]? with
    | some b => if set.contains b then k (i + 1) caps else none
    | none => none
  | .lineStart => if i = s.start && !s.preceded then k i caps else none
  | .lineEnd => if i = s.bytes.size then k i caps else none
  | .wordBoundary negated => if s.isBoundary i != negated then k i caps else none
  | .group index body => body.run s i caps fun j caps => k j ((index, i, j) :: caps)
  | .backref index =>
    match caps.lookup index with
    | none => none
    | some (first, last) =>
      let text := s.bytes.extract first last
      if s.bytes.extract i (i + text.size) == text then k (i + text.size) caps else none
  | .look negated body =>
    match body.run { s with start := i } i caps fun _ caps => some caps with
    | some found => if negated then none else k i found
    | none => if negated then k i caps else none
  | .seq a b => a.run s i caps fun i caps => b.run s i caps k
  | .alt a b => (a.run s i caps k).orElse fun _ => b.run s i caps k
  | .rep body least extra greedy =>
    times (body.run s) least i caps fun i caps =>
      match extra with
      | some n => upTo (body.run s) greedy n i caps k
      | none => many (body.run s) greedy (2 * (s.bytes.size + 2)) (0, 0) i caps k

/-- The pattern matches somewhere in the text. -/
def search (node : Node) (text : List UInt8) : Bool :=
  let bytes := text.toArray
  (List.range (bytes.size + 1)).any fun start =>
    (node.run ⟨bytes, start, start != 0⟩ start [] fun _ caps => some caps).isSome

end Node

end Pattern

end WasmEngine
