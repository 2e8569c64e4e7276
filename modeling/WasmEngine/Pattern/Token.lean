import WasmEngine.Pattern.Node

/-!
# Tokens of a pattern

A pattern text is cut into tokens: plain bytes, byte sets, assertions, quantifiers and brackets. A
bracket expression and a counted repetition are one token each.
-/
namespace WasmEngine
set_option autoImplicit false

namespace Pattern

inductive Paren where
  | capture
  | plain
  | look (negated : Bool)
  deriving DecidableEq, Inhabited

inductive Token where
  | set (s : ByteSet)
  | lineStart
  | lineEnd
  | wordBoundary (negated : Bool)
  | backref (index : Nat)
  | opening (p : Paren)
  | closing
  | bar
  | star
  | plus
  | question
  /-- A count, and the largest count, `none` if there is no largest. -/
  | counted (least : Nat) (most : Option Nat)
  deriving DecidableEq, Inhabited

inductive Escape where
  | byte (b : UInt8)
  | cls (c : ByteClass) (negated : Bool)
  | wordBoundary (negated : Bool)
  | backref (index : Nat)
  deriving DecidableEq, Inhabited

def Token.byte (b : UInt8) : Token := .set ⟨false, [.byte b]⟩

def decimal (digits : List UInt8) : Nat :=
  digits.foldl (fun n d => 10 * n + (d.toNat - 0x30)) 0

def hexDigit (b : UInt8) : Nat :=
  if isDigit b then b.toNat - 0x30 else (toLower b).toNat - 0x57

/-- A code of `count` hexadecimal digits, of which a byte keeps the last two. -/
def hexEscape? (count : Nat) (bytes : List UInt8) : Option (UInt8 × List UInt8) :=
  let digits := bytes.take count
  if digits.length = count && digits.all isHexDigit then
    some ((digits.foldl (fun n d => 16 * n + hexDigit d) 0).toUInt8, bytes.drop count)
  else none

/-- Reads an escape behind its backslash. Inside brackets `b` is the backspace. -/
def escape? (inBrackets : Bool) : List UInt8 → Option (Escape × List UInt8)
  | [] => none
  | c :: rest =>
    let byte b := some (Escape.byte b, rest)
    match Char.ofNat c.toNat with
    | '0' => byte 0x00
    | 'b' => if inBrackets then byte 0x08 else some (.wordBoundary false, rest)
    | 'f' => byte 0x0C
    | 'n' => byte 0x0A
    | 'r' => byte 0x0D
    | 't' => byte 0x09
    | 'v' => byte 0x0B
    | 'B' => some (.wordBoundary true, rest)
    | 'd' => some (.cls .digit false, rest)
    | 'D' => some (.cls .digit true, rest)
    | 's' => some (.cls .space false, rest)
    | 'S' => some (.cls .space true, rest)
    | 'w' => some (.cls .word false, rest)
    | 'W' => some (.cls .word true, rest)
    | 'c' => match rest with
      | [] => none
      | d :: rest => some (.byte d, rest)
    | 'x' => (hexEscape? 2 rest).map fun (b, rest) => (.byte b, rest)
    | 'u' => (hexEscape? 4 rest).map fun (b, rest) => (.byte b, rest)
    | _ =>
      if isDigit c then
        some (.backref (decimal (c :: rest.takeWhile isDigit)), rest.dropWhile isDigit)
      else byte c

/-- The names of the characters below 128, by their codes. -/
def collatingNames : List String :=
  ["NUL", "SOH", "STX", "ETX", "EOT", "ENQ", "ACK", "alert", "backspace", "tab", "newline",
    "vertical-tab", "form-feed", "carriage-return", "SO", "SI", "DLE", "DC1", "DC2", "DC3", "DC4",
    "NAK", "SYN", "ETB", "CAN", "EM", "SUB", "ESC", "IS4", "IS3", "IS2", "IS1", "space",
    "exclamation-mark", "quotation-mark", "number-sign", "dollar-sign", "percent-sign",
    "ampersand", "apostrophe", "left-parenthesis", "right-parenthesis", "asterisk", "plus-sign",
    "comma", "hyphen", "period", "slash", "zero", "one", "two", "three", "four", "five", "six",
    "seven", "eight", "nine", "colon", "semicolon", "less-than-sign", "equals-sign",
    "greater-than-sign", "question-mark", "commercial-at", "A", "B", "C", "D", "E", "F", "G", "H",
    "I", "J", "K", "L", "M", "N", "O", "P", "Q", "R", "S", "T", "U", "V", "W", "X", "Y", "Z",
    "left-square-bracket", "backslash", "right-square-bracket", "circumflex", "underscore",
    "grave-accent", "a", "b", "c", "d", "e", "f", "g", "h", "i", "j", "k", "l", "m", "n", "o", "p",
    "q", "r", "s", "t", "u", "v", "w", "x", "y", "z", "left-curly-bracket", "vertical-line",
    "right-curly-bracket", "tilde", "DEL"]

def collating? (name : List UInt8) : Option UInt8 :=
  (collatingNames.findIdx? (·.toUTF8.toList == name)).map Nat.toUInt8

/-- An item between brackets, before ranges are formed. -/
inductive BracketItem where
  | byte (b : UInt8)
  /-- A byte given by its collating name, which cannot end a range. -/
  | symbol (b : UInt8)
  | dash
  | whole (item : SetItem)
  deriving DecidableEq, Inhabited

/-- Reads the name in `[:name:]`, `[.name.]` or `[=name=]`, behind its mark. -/
def delimited? (mark : UInt8) (bytes : List UInt8) : Option (List UInt8 × List UInt8) :=
  match bytes.dropWhile (· != mark) with
  | _ :: 0x5D :: rest => some (bytes.takeWhile (· != mark), rest)
  | _ => none

/-- Reads one item between brackets; `none` as an item is the closing bracket. -/
def bracketItem? : List UInt8 → Option (Option BracketItem × List UInt8)
  | [] => none
  | 0x5D :: rest => some (none, rest)
  | 0x2D :: rest => some (some .dash, rest)
  | [0x5B] => none
  | 0x5B :: 0x2E :: rest => do
    let (name, rest) ← delimited? 0x2E rest
    return (some (.symbol (← collating? name)), rest)
  | 0x5B :: 0x3A :: rest => do
    let (name, rest) ← delimited? 0x3A rest
    return (some (.whole (.cls (← ByteClass.ofName? name) false)), rest)
  | 0x5B :: 0x3D :: rest => do
    let (name, rest) ← delimited? 0x3D rest
    return (some (.whole (.anyCase (← collating? name))), rest)
  | 0x5C :: rest => do
    match ← escape? true rest with
    | (.byte b, rest) => return (some (.byte b), rest)
    | (.cls c negated, rest) => return (some (.whole (.cls c negated)), rest)
    | _ => none
  | b :: rest => some (some (.byte b), rest)

/-- Reads the items up to the closing bracket. Every item takes a byte, so the number of bytes
bounds the number of items. -/
def bracketItems? : Nat → List UInt8 → Option (List BracketItem × List UInt8)
  | 0, _ => none
  | n + 1, bytes => do
    match ← bracketItem? bytes with
    | (none, rest) => return ([], rest)
    | (some item, rest) =>
      let (items, rest) ← bracketItems? n rest
      return (item :: items, rest)

/-- What stands before a dash: nothing that could start a range, a byte, or a class. -/
inductive Pending where
  | nothing
  | byte (b : UInt8)
  | cls
  deriving DecidableEq, Inhabited

def Pending.flush : Pending → List SetItem
  | .byte b => [.byte b]
  | _ => []

/-- Forms ranges. A dash is plain at either end and after a range; after a class it is refused. -/
def ranges? : Pending → List BracketItem → Option (List SetItem)
  | p, [] => some p.flush
  | p, .byte b :: rest => (ranges? (.byte b) rest).map (p.flush ++ ·)
  | p, .symbol b :: rest => (ranges? (.byte b) rest).map (p.flush ++ ·)
  | p, .whole item :: rest => (ranges? .cls rest).map (p.flush ++ item :: ·)
  | p, [.dash] => some (p.flush ++ [.byte 0x2D])
  | .cls, .dash :: _ => none
  | .byte low, .dash :: .byte high :: rest =>
    if rank high < rank low then none
    else (ranges? .nothing rest).map (.range low high :: ·)
  | .byte low, .dash :: .dash :: rest =>
    if rank 0x2D < rank low then none
    else (ranges? .nothing rest).map (.range low 0x2D :: ·)
  | .byte _, .dash :: _ => none
  | .nothing, .dash :: rest => ranges? (.byte 0x2D) rest

/-- The set between brackets. A dash that comes first is plain. -/
def bracket? (negated : Bool) (bytes : List UInt8) : Option (ByteSet × List UInt8) := do
  let (items, rest) ← bracketItems? (bytes.length + 1) bytes
  let items := match items with
    | .dash :: more => .byte 0x2D :: more
    | items => items
  return (⟨negated, ← ranges? .nothing items⟩, rest)

/-- Reads a counted repetition behind its opening brace. -/
def counted? (bytes : List UInt8) : Option (Token × List UInt8) :=
  let least := bytes.takeWhile isDigit
  if least.isEmpty then none
  else match bytes.dropWhile isDigit with
    | 0x7D :: rest => some (.counted (decimal least) (some (decimal least)), rest)
    | 0x2C :: rest =>
      let most := rest.takeWhile isDigit
      match rest.dropWhile isDigit with
      | 0x7D :: after =>
        some (.counted (decimal least) (if most.isEmpty then none else some (decimal most)), after)
      | _ => none
    | _ => none

def token? : List UInt8 → Option (Token × List UInt8)
  | [] => none
  | c :: rest =>
    match Char.ofNat c.toNat with
    | '^' => some (.lineStart, rest)
    | '$' => some (.lineEnd, rest)
    | '.' => some (.set .dot, rest)
    | '*' => some (.star, rest)
    | '+' => some (.plus, rest)
    | '?' => some (.question, rest)
    | '|' => some (.bar, rest)
    | ')' => some (.closing, rest)
    | '(' => match rest with
      | 0x3F :: 0x3A :: rest => some (.opening .plain, rest)
      | 0x3F :: 0x3D :: rest => some (.opening (.look false), rest)
      | 0x3F :: 0x21 :: rest => some (.opening (.look true), rest)
      | 0x3F :: _ => none
      | rest => some (.opening .capture, rest)
    | '[' => match rest with
      | 0x5E :: rest => (bracket? true rest).map fun (s, rest) => (.set s, rest)
      | rest => (bracket? false rest).map fun (s, rest) => (.set s, rest)
    | '{' => counted? rest
    | '\\' => do
      match ← escape? false rest with
      | (.byte b, rest) => return (.byte b, rest)
      | (.cls c negated, rest) => return (.set ⟨negated, [.cls c false]⟩, rest)
      | (.wordBoundary negated, rest) => return (.wordBoundary negated, rest)
      | (.backref n, rest) => return (.backref n, rest)
    | _ => some (.byte c, rest)

/-- Reads tokens to the end of the text; every token takes a byte. -/
def tokensWithin? : Nat → List UInt8 → Option (List Token)
  | _, [] => some []
  | 0, _ => none
  | n + 1, bytes => do
    let (t, rest) ← token? bytes
    return t :: (← tokensWithin? n rest)

/-- The tokens of a pattern text, if it can be cut into tokens. -/
def tokens? (bytes : List UInt8) : Option (List Token) := tokensWithin? bytes.length bytes

end Pattern

end WasmEngine
