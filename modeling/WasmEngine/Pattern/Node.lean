/-!
# Name patterns

The structure of a pattern that is searched in a name. Patterns work on the bytes of the UTF-8
encoding; the classes know ASCII only.
-/
namespace WasmEngine
set_option autoImplicit false

namespace Pattern

inductive ByteClass where
  | alnum
  | alpha
  | blank
  | cntrl
  | digit
  | graph
  | lower
  | print
  | punct
  | space
  | upper
  | word
  | xdigit
  deriving DecidableEq, Inhabited

/-- The ASCII letter of the other case becomes the small one; other bytes stay. -/
def toLower (b : UInt8) : UInt8 := if 0x41 ≤ b && b ≤ 0x5A then b + 0x20 else b

def isDigit (b : UInt8) : Bool := 0x30 ≤ b && b ≤ 0x39

def isHexDigit (b : UInt8) : Bool := isDigit b || (0x61 ≤ toLower b && toLower b ≤ 0x66)

def isAlpha (b : UInt8) : Bool := 0x61 ≤ toLower b && toLower b ≤ 0x7A

/-- Letters, digits and the underscore. -/
def isWord (b : UInt8) : Bool := isAlpha b || isDigit b || b == 0x5F

namespace ByteClass

def contains (c : ByteClass) (b : UInt8) : Bool :=
  match c with
  | .alnum => isAlpha b || isDigit b
  | .alpha => isAlpha b
  | .blank => b == 0x20 || b == 0x09
  | .cntrl => b < 0x20 || b == 0x7F
  | .digit => isDigit b
  | .graph => 0x21 ≤ b && b ≤ 0x7E
  | .lower => 0x61 ≤ b && b ≤ 0x7A
  | .print => 0x20 ≤ b && b ≤ 0x7E
  | .punct => 0x21 ≤ b && b ≤ 0x7E && !isAlpha b && !isDigit b
  | .space => b == 0x20 || (0x09 ≤ b && b ≤ 0x0D)
  | .upper => 0x41 ≤ b && b ≤ 0x5A
  | .word => isWord b
  | .xdigit => isHexDigit b

/-- The names of the classes, in any case of letters; the one-letter names are the escapes. -/
def table : List (String × ByteClass) :=
  [("d", .digit), ("w", .word), ("s", .space), ("alnum", .alnum), ("alpha", .alpha),
    ("blank", .blank), ("cntrl", .cntrl), ("digit", .digit), ("graph", .graph), ("lower", .lower),
    ("print", .print), ("punct", .punct), ("space", .space), ("upper", .upper),
    ("xdigit", .xdigit)]

def ofName? (name : List UInt8) : Option ByteClass :=
  (table.find? fun e => e.1.toUTF8.toList == name.map toLower).map (·.2)

end ByteClass

/-- The byte as a signed number, by which ranges are ordered. -/
def rank (b : UInt8) : Int := if b < 0x80 then b.toNat else (b.toNat : Int) - 256

/-- A part of a bracket expression. -/
inductive SetItem where
  | byte (b : UInt8)
  | range (low high : UInt8)
  | cls (c : ByteClass) (negated : Bool)
  /-- The byte in either case of letters. -/
  | anyCase (b : UInt8)
  deriving DecidableEq, Inhabited

def SetItem.contains (item : SetItem) (b : UInt8) : Bool :=
  match item with
  | .byte c => b == c
  | .range low high => rank low ≤ rank b && rank b ≤ rank high
  | .cls c negated => c.contains b != negated
  | .anyCase c => toLower b == toLower c

/-- A set of bytes, or the bytes outside it. -/
structure ByteSet where
  negated : Bool := false
  items : List SetItem := []
  deriving DecidableEq, Inhabited

def ByteSet.contains (s : ByteSet) (b : UInt8) : Bool :=
  s.items.any (·.contains b) != s.negated

/-- Any byte but a line feed or a carriage return. -/
def ByteSet.dot : ByteSet := ⟨true, [.byte 0x0A, .byte 0x0D]⟩

inductive Node where
  | empty
  | bytes (set : ByteSet)
  | lineStart
  | lineEnd
  | wordBoundary (negated : Bool)
  | group (index : Nat) (body : Node)
  /-- The bytes that a group matched last; fails if it has not matched yet. -/
  | backref (index : Nat)
  | look (negated : Bool) (body : Node)
  | seq (first second : Node)
  | alt (first second : Node)
  /-- At least `least` times, and `extra` times more if that is bounded. -/
  | rep (body : Node) (least : Nat) (extra : Option Nat) (greedy : Bool)
  deriving Inhabited

end Pattern

end WasmEngine
