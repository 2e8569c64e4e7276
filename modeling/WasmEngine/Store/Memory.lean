import WasmEngine.Types

/-!
# Linear memories

A memory is a byte array that grows in whole pages. Numbers are stored with the lowest byte first.
An access is in bounds when all its bytes lie inside the memory; addresses do not wrap around.
-/
namespace WasmEngine
set_option autoImplicit false

def pageSize : Nat := 65536

/-- No memory has more pages than a 32-bit address can reach. -/
def addressablePages : Nat := 65536

/-- The ceiling of a memory for which none is given. -/
def defaultPagesLimit : Nat := 4096

/-- `n` zero bytes. -/
def zeros (n : Nat) : ByteArray :=
  if n = 0 then .empty
  else
    let half := zeros (n / 2)
    if n % 2 = 0 then half ++ half else (half ++ half).push 0
termination_by n

structure Memory where
  bytes : ByteArray := .empty
  limits : Limits := {}
  /-- The ceiling set by the embedder, in pages. -/
  pagesLimit : Nat := defaultPagesLimit
  deriving Inhabited

namespace Memory

/-- A zeroed memory of the least declared size. -/
def create (limits : Limits) (pagesLimit : Nat) : Memory :=
  ⟨zeros (limits.min * pageSize), limits, pagesLimit⟩

variable (m : Memory)

def size : Nat := m.bytes.size

def pages : Nat := m.size / pageSize

def maxPages : Nat := m.limits.top (Nat.min m.pagesLimit addressablePages)

def canGrow (delta : Nat) : Bool := m.pages + delta ≤ m.maxPages

/-- The memory with zeroed pages behind it: that of `pages + delta` pages, since memories consist of
whole pages. -/
def extend (delta : Nat) : Memory := { m with bytes := m.bytes ++ zeros (delta * pageSize) }

def grow? (delta : Nat) : Option Memory := if m.canGrow delta then some (m.extend delta) else none

/-- The memory cut or extended with zeros to a number of pages, whatever its limits. -/
def resize (pages : Nat) : Memory :=
  let size := pages * pageSize
  if size ≤ m.size then { m with bytes := m.bytes.extract 0 size }
  else { m with bytes := m.bytes ++ zeros (size - m.size) }

/-- The byte at an address, zero outside the memory. -/
def byte (address : Nat) : UInt8 :=
  if h : address < m.bytes.size then m.bytes[address] else 0

/-- An access of `width` bytes at an address stays inside the memory. -/
def inBounds (address width : Nat) : Bool := address + width ≤ m.size

/-- The number held by `width` bytes, lowest first. -/
def read (address : Nat) : Nat → Nat
  | 0 => 0
  | width + 1 => (m.byte address).toNat + 256 * read (address + 1) width

/-- Stores the `width` lowest bytes of a number, lowest first. -/
def write (m : Memory) (address : Nat) : Nat → Nat → Memory
  | 0, _ => m
  | width + 1, value =>
    write { m with bytes := m.bytes.set! address (value % 256).toUInt8 } (address + 1) width
      (value / 256)

/-- Stores bytes one after another. -/
def writeBytes (m : Memory) (address : Nat) : List UInt8 → Memory
  | [] => m
  | b :: rest => writeBytes { m with bytes := m.bytes.set! address b } (address + 1) rest

/-- Up to `count` bytes from an address on, cut at the end of the memory. -/
def readBytes (address count : Nat) : List UInt8 :=
  (m.bytes.extract address (address + count)).toList

end Memory

end WasmEngine
