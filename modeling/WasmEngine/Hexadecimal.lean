/-!
# Hexadecimal text

Numbers and bytes as hexadecimal digits. Written digits are lower case; both cases are read.
-/
namespace WasmEngine
set_option autoImplicit false

namespace Hexadecimal

def digit? (c : Char) : Option Nat :=
  if '0' ≤ c ∧ c ≤ '9' then some (c.toNat - 48)
  else if 'a' ≤ c ∧ c ≤ 'f' then some (c.toNat - 87)
  else if 'A' ≤ c ∧ c ≤ 'F' then some (c.toNat - 55)
  else none

/-- The number with the given digits, highest first. -/
def toNat? (s : String) : Option Nat :=
  s.toList.foldlM (fun n c => (digit? c).map (16 * n + ·)) 0

/-- The number written with at least `count` digits. -/
def ofNat (count n : Nat) : String :=
  let digits := Nat.toDigits 16 n
  String.ofList (List.replicate (count - digits.length) '0' ++ digits)

/-- Reads two digits a byte, onto the bytes read before, last first. -/
def readBytes (before : List UInt8) : List Char → Option (List UInt8)
  | [] => some before.reverse
  | [_] => none
  | a :: b :: rest =>
    match digit? a, digit? b with
    | some x, some y => readBytes ((16 * x + y).toUInt8 :: before) rest
    | _, _ => none

def toBytes? (s : String) : Option (List UInt8) := readBytes [] s.toList

def ofBytes (bytes : List UInt8) : String :=
  String.ofList
    (bytes.flatMap fun b => [Nat.digitChar (b.toNat / 16), Nat.digitChar (b.toNat % 16)])

end Hexadecimal

end WasmEngine
