import WasmEngine.Numeric.Format

/-!
# Floating-point arithmetic

Arithmetic on bit patterns. A NaN operand is returned as a quiet NaN, the first one if both are
NaNs; an invalid operation on numbers gives `Format.invalidNaN`. Rounding functions, minimum,
maximum and square root give `Format.canonicalNaN` for a NaN operand instead.
-/
namespace WasmEngine
set_option autoImplicit false

namespace Format

variable (F : Format)

/-- The pattern of a sum that is `total` units. A zero sum is negative only if both terms are. -/
def encodeSum (bothNegative : Bool) (total : Int) : Nat :=
  F.signed (if total = 0 then bothNegative else total < 0) (F.nearest total.natAbs 1)

def add (x y : Nat) : Nat :=
  if F.isNaN x then F.quiet x
  else if F.isNaN y then F.quiet y
  else if F.isInfinite x then
    if F.isInfinite y && F.negative x != F.negative y then F.invalidNaN else x
  else if F.isInfinite y then y
  else F.encodeSum (F.negative x && F.negative y) (F.signedUnits x + F.signedUnits y)

/-- The pattern with its sign bit flipped, also for a NaN. -/
def neg (x : Nat) : Nat := F.signed (!F.negative x) (F.magnitude x)

/-- The pattern without its sign bit, also for a NaN. -/
def abs (x : Nat) : Nat := F.magnitude x

/-- The magnitude of the first pattern with the sign of the second, also for NaNs. -/
def copysign (x y : Nat) : Nat := F.signed (F.negative y) (F.magnitude x)

def sub (x y : Nat) : Nat := if F.isNaN y && !F.isNaN x then F.quiet y else F.add x (F.neg y)

def mul (x y : Nat) : Nat :=
  let negative := F.negative x != F.negative y
  if F.isNaN x then F.quiet x
  else if F.isNaN y then F.quiet y
  else if F.isInfinite x then
    if F.magnitude y = 0 then F.invalidNaN else F.signed negative F.infinity
  else if F.isInfinite y then
    if F.magnitude x = 0 then F.invalidNaN else F.signed negative F.infinity
  else F.signed negative (F.nearest (F.units x * F.units y) F.one)

def div (x y : Nat) : Nat :=
  let negative := F.negative x != F.negative y
  if F.isNaN x then F.quiet x
  else if F.isNaN y then F.quiet y
  else if F.isInfinite x then
    if F.isInfinite y then F.invalidNaN else F.signed negative F.infinity
  else if F.isInfinite y then F.signed negative 0
  else if F.magnitude y = 0 then
    if F.magnitude x = 0 then F.invalidNaN else F.signed negative F.infinity
  else F.signed negative (F.nearest (F.units x * F.one) (F.units y))

/-- The square root. An inexact root lies strictly between two neighbouring natural numbers of
units; half a unit above the lower one rounds the same way, because the format is coarser there. -/
def sqrt (x : Nat) : Nat :=
  if F.isNaN x then F.canonicalNaN
  else if F.magnitude x = 0 then x
  else if F.negative x then F.invalidNaN
  else if F.isInfinite x then x
  else
    let square := F.units x * F.one
    let root := square.sqrt
    F.nearest (2 * root + (if root * root = square then 0 else 1)) 2

/-- The value of a pattern that is not a NaN, as a key for the numeric order. Both zeros have the
same key. -/
def orderKey (x : Nat) : Int :=
  if F.negative x then -(F.magnitude x : Int) else F.magnitude x

/-- Whether the patterns are equal as numbers. A NaN is not equal to anything. -/
def equal (x y : Nat) : Bool := !F.isNaN x && !F.isNaN y && F.orderKey x == F.orderKey y

/-- Whether the first pattern is less than the second. A NaN is not ordered with anything. -/
def less (x y : Nat) : Bool := !F.isNaN x && !F.isNaN y && F.orderKey x < F.orderKey y

/-- The smaller number. Zeros are equal as numbers, so the sign of the first one decides. -/
def min (x y : Nat) : Nat :=
  if F.isNaN x || F.isNaN y then F.canonicalNaN
  else if F.equal x 0 && F.equal y 0 then if F.negative x then x else y
  else if F.less y x then y else x

/-- The greater number, likewise. -/
def max (x y : Nat) : Nat :=
  if F.isNaN x || F.isNaN y then F.canonicalNaN
  else if F.equal x 0 && F.equal y 0 then if F.negative x then y else x
  else if F.less x y then y else x

/-- The exact remainder of a division whose quotient is a whole number rounded toward zero. -/
def fmod (x y : Nat) : Nat :=
  if F.isNaN x then F.quiet x
  else if F.isNaN y then F.quiet y
  else if F.isInfinite x || F.magnitude y == 0 then F.invalidNaN
  else if F.isInfinite y then x
  else F.signed (F.negative x) (F.nearest (F.units x % F.units y) 1)

end Format

/-- The three directions in which the mathematical library rounds a value to a whole number. -/
inductive Rounding where
  | up
  | down
  | towardZero
  deriving DecidableEq, Inhabited

namespace Rounding

/-- The whole number, in absolute value, to which `num / den` is rounded. -/
def apply (mode : Rounding) (negative : Bool) (num den : Nat) : Nat :=
  let away := if num % den = 0 then num / den else num / den + 1
  match mode with
  | .up => if negative then num / den else away
  | .down => if negative then away else num / den
  | .towardZero => num / den

end Rounding

namespace Format

variable (F : Format)

/-- The value rounded to a whole number, which may be a zero with the sign of the operand. -/
def toWhole (mode : Rounding) (x : Nat) : Nat :=
  if F.isNaN x then F.quiet x
  else if F.isInfinite x then x
  else
    let whole := mode.apply (F.negative x) (F.units x) F.one
    F.signed (F.negative x) (F.nearest (whole * F.one) 1)

/-- The pattern of a half. -/
def half : Nat := F.nearest (F.one / 2) 1

/-- The value rounded to the nearest whole number, the even one of two: one further from zero than
what dropping the fraction leaves, if more than a half was dropped, or a half from an odd number. -/
def toNearest (x : Nat) : Nat :=
  let t := F.toWhole .towardZero x
  let diff := F.abs (F.sub x t)
  if F.less F.half diff ||
      (F.equal diff F.half && !F.equal (F.fmod t (F.nearest (2 * F.one) 1)) 0) then
    F.add t (F.copysign (F.nearest F.one 1) x)
  else t

/-- Applies a rounding function. The sign of the result always matches the operand, also for zero
results, and a NaN gives the canonical one. -/
def roundWith (fn : Nat → Nat) (x : Nat) : Nat :=
  if F.isNaN x then F.canonicalNaN else F.copysign (fn x) x

end Format

inductive FloatUnary where
  | abs
  | neg
  | ceil
  | floor
  | trunc
  | nearest
  | sqrt
  deriving DecidableEq, Inhabited

inductive FloatBinary where
  | add
  | sub
  | mul
  | div
  | min
  | max
  | copysign
  deriving DecidableEq, Inhabited

inductive FloatCompare where
  | eq
  | ne
  | lt
  | gt
  | le
  | ge
  deriving DecidableEq, Inhabited

namespace FloatUnary

def all : List FloatUnary := [.abs, .neg, .ceil, .floor, .trunc, .nearest, .sqrt]

def name : FloatUnary → String
  | .abs => "abs"
  | .neg => "neg"
  | .ceil => "ceil"
  | .floor => "floor"
  | .trunc => "trunc"
  | .nearest => "nearest"
  | .sqrt => "sqrt"

def eval (op : FloatUnary) (F : Format) (x : Nat) : Nat :=
  match op with
  | .abs => F.abs x
  | .neg => F.neg x
  | .ceil => F.roundWith (F.toWhole .up) x
  | .floor => F.roundWith (F.toWhole .down) x
  | .trunc => F.roundWith (F.toWhole .towardZero) x
  | .nearest => F.roundWith F.toNearest x
  | .sqrt => F.sqrt x

end FloatUnary

namespace FloatBinary

def all : List FloatBinary := [.add, .sub, .mul, .div, .min, .max, .copysign]

def name : FloatBinary → String
  | .add => "add"
  | .sub => "sub"
  | .mul => "mul"
  | .div => "div"
  | .min => "min"
  | .max => "max"
  | .copysign => "copysign"

def eval (op : FloatBinary) (F : Format) (x y : Nat) : Nat :=
  match op with
  | .add => F.add x y
  | .sub => F.sub x y
  | .mul => F.mul x y
  | .div => F.div x y
  | .min => F.min x y
  | .max => F.max x y
  | .copysign => F.copysign x y

end FloatBinary

namespace FloatCompare

def all : List FloatCompare := [.eq, .ne, .lt, .gt, .le, .ge]

def name : FloatCompare → String
  | .eq => "eq"
  | .ne => "ne"
  | .lt => "lt"
  | .gt => "gt"
  | .le => "le"
  | .ge => "ge"

/-- A NaN is unequal to everything and not ordered with anything. -/
def eval (op : FloatCompare) (F : Format) (x y : Nat) : Bool :=
  match op with
  | .eq => F.equal x y
  | .ne => !F.equal x y
  | .lt => F.less x y
  | .gt => F.less y x
  | .le => F.less x y || F.equal x y
  | .ge => F.less y x || F.equal x y

end FloatCompare

end WasmEngine
