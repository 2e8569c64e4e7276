import WasmEngine.Binary.Leb128
import WasmEngine.Binary.Utf8
import WasmEngine.IndexMap

/-!
# The name section

The custom section that gives debug names to a module and its parts. It is a sequence of
subsections, each an identifier, a size and that many bytes. The content of a known subsection must
fill it exactly; the bytes of an unknown one are skipped. The last subsection of an identifier
decides, and within a map the last entry of an index.
-/
namespace WasmEngine
set_option autoImplicit false

abbrev NameMap := IndexMap String

/-- Debug names, by index. -/
structure NameSection where
  moduleName : Option String := none
  functions : NameMap := .empty
  locals : IndexMap NameMap := .empty
  labels : IndexMap NameMap := .empty
  types : NameMap := .empty
  tables : NameMap := .empty
  memories : NameMap := .empty
  globals : NameMap := .empty
  deriving DecidableEq, Inhabited

namespace NameSection

/-- Reads as many items as announced, one after another. -/
def readMany {α : Type} (item : Reader α) : Nat → Reader (List α)
  | 0, bytes => .ok ([], bytes)
  | n + 1, bytes => do
    let (a, bytes) ← item bytes
    let (rest, bytes) ← readMany item n bytes
    return (a :: rest, bytes)

/-- A name: its length in bytes, then that many bytes of UTF-8. -/
def readName : Reader String := fun bytes => do
  let (size, bytes) ← Leb128.decode 32 bytes
  if bytes.length < size then .error .unexpectedEnd
  else match Utf8.decode? (bytes.take size) with
    | none => .error .invalidUtf8
    | some chars => return (String.ofList chars, bytes.drop size)

/-- An index and the item that belongs to it. -/
def readEntry {α : Type} (item : Reader α) : Reader (Nat × α) := fun bytes => do
  let (i, bytes) ← Leb128.decode 32 bytes
  let (a, bytes) ← item bytes
  return ((i, a), bytes)

/-- A map: the number of its entries, then the entries. -/
def readMap {α : Type} (item : Reader α) : Reader (IndexMap α) := fun bytes => do
  let (count, bytes) ← Leb128.decode 32 bytes
  let (entries, bytes) ← readMany (readEntry item) count bytes
  return (.ofList entries, bytes)

/-- The item that fills the bytes exactly. -/
def readAll {α : Type} (item : Reader α) (bytes : List UInt8) : Except DecodeError α := do
  let (a, rest) ← item bytes
  if rest.isEmpty then return a else .error .sizeMismatch

/-- The section with one field replaced by the content of a subsection. -/
def withSubsection (s : NameSection) (id : Nat) (content : List UInt8) :
    Except DecodeError NameSection :=
  match id with
  | 0 => do return { s with moduleName := some (← readAll readName content) }
  | 1 => do return { s with functions := ← readAll (readMap readName) content }
  | 2 => do return { s with locals := ← readAll (readMap (readMap readName)) content }
  | 3 => do return { s with labels := ← readAll (readMap (readMap readName)) content }
  | 4 => do return { s with types := ← readAll (readMap readName) content }
  | 5 => do return { s with tables := ← readAll (readMap readName) content }
  | 6 => do return { s with memories := ← readAll (readMap readName) content }
  | 7 => do return { s with globals := ← readAll (readMap readName) content }
  | _ => .ok s

/-- Decodes the subsections in order, starting from the names found so far. -/
def decodeFrom (s : NameSection) (bytes : List UInt8) : Except DecodeError NameSection :=
  match bytes with
  | [] => .ok s
  | id :: tail =>
    match h : Leb128.decode 32 tail with
    | .error e => .error e
    | .ok (size, content) =>
      have := Leb128.length_of_decode h
      if content.length < size then .error .unexpectedEnd
      else match s.withSubsection id.toNat (content.take size) with
        | .error e => .error e
        | .ok s => decodeFrom s (content.drop size)
termination_by bytes.length
decreasing_by
  simp only [List.length_drop, List.length_cons]
  omega

def decode (payload : List UInt8) : Except DecodeError NameSection := decodeFrom {} payload

def functionName? (s : NameSection) (index : Nat) : Option String := s.functions.get? index

end NameSection

end WasmEngine
