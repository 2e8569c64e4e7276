import WasmEngine.Types

/-!
# Binary floating-point formats

A bit pattern is a natural number below `2 ^ width`. Every finite pattern denotes a whole number of
`units`, a unit being the smallest positive value of the format, so sums, products, quotients and
conversions are computed exactly on natural numbers and rounded once, to nearest with ties to even.
-/
namespace WasmEngine
set_option autoImplicit false

/-- The field widths of a binary interchange format. -/
structure Format where
  exponentBits : Nat
  fractionBits : Nat
  deriving DecidableEq, Inhabited

namespace Format

def binary32 : Format := ⟨8, 23⟩

def binary64 : Format := ⟨11, 52⟩

variable (F : Format)

def width : Nat := F.exponentBits + F.fractionBits + 1

def signWeight : Nat := 1 <<< (F.exponentBits + F.fractionBits)

/-- The magnitude pattern of an infinity: exponent all ones, fraction zero. -/
def infinity : Nat := (1 <<< F.exponentBits - 1) <<< F.fractionBits

/-- The fraction bit that tells quiet NaNs from signalling ones. -/
def quietBit : Nat := 1 <<< (F.fractionBits - 1)

/-- The positive quiet NaN with no other payload. -/
def canonicalNaN : Nat := F.infinity + F.quietBit

/-- The negative quiet NaN that an invalid operation on numbers produces. -/
def invalidNaN : Nat := F.signWeight + F.canonicalNaN

/-- One is `2 ^ unitShift` units. -/
def unitShift : Nat := 1 <<< (F.exponentBits - 1) + F.fractionBits - 2

def one : Nat := 1 <<< F.unitShift

def negative (x : Nat) : Bool := x / F.signWeight % 2 == 1

def magnitude (x : Nat) : Nat := x % F.signWeight

def signed (negative : Bool) (magnitude : Nat) : Nat :=
  if negative then F.signWeight + magnitude else magnitude

def isNaN (x : Nat) : Bool := F.infinity < F.magnitude x

def isInfinite (x : Nat) : Bool := F.magnitude x == F.infinity

/-- The absolute value of a finite pattern in units. -/
def units (x : Nat) : Nat :=
  let exponent := F.magnitude x >>> F.fractionBits
  let fraction := F.magnitude x % 1 <<< F.fractionBits
  if exponent = 0 then fraction else (1 <<< F.fractionBits + fraction) <<< (exponent - 1)

/-- The value of a finite pattern in units, with its sign. -/
def signedUnits (x : Nat) : Int :=
  if F.negative x then -(F.units x : Int) else F.units x

/-- The NaN as a quiet one, payload and sign kept. -/
def quiet (x : Nat) : Nat :=
  if x / F.quietBit % 2 = 0 then x + F.quietBit else x

end Format

/-- The quotient rounded to the nearest natural number, a half to the even neighbour. -/
def roundHalfEven (num den : Nat) : Nat :=
  let q := num / den
  let r := num % den
  if den < 2 * r ∨ (den = 2 * r ∧ q % 2 = 1) then q + 1 else q

namespace Format

variable (F : Format)

/-- The magnitude nearest to `num / den` units. Consecutive magnitudes are consecutive numbers, so a
significand that rounds up into the next binade, or past the largest finite one, needs no special
case beyond the cut at infinity. -/
def nearest (num den : Nat) : Nat :=
  let scale := (num / den).log2 - F.fractionBits
  Nat.min (scale <<< F.fractionBits + roundHalfEven num (den <<< scale)) F.infinity

end Format

namespace FloatType

def format : FloatType → Format
  | .f32 => .binary32
  | .f64 => .binary64

end FloatType

end WasmEngine
