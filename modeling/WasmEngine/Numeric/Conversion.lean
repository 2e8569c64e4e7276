import WasmEngine.Cell
import WasmEngine.Trap
import WasmEngine.Numeric.Arithmetic

/-!
# Conversions between number types

Truncation to an integer is exact or traps, which a comparison with two bounds decides; conversion
from an integer and between the two floating-point formats rounds once to nearest. Reinterpretation
keeps the bits.
-/
namespace WasmEngine
set_option autoImplicit false

namespace Format

/-- The whole number left when the fraction of a finite pattern is dropped. -/
def truncate (F : Format) (x : Nat) : Int := (F.signedUnits x).tdiv F.one

def ofInteger (F : Format) (n : Int) : Nat :=
  F.signed (n < 0) (F.nearest (n.natAbs * F.one) 1)

/-- A pattern of the format `F` as the nearest one of the format `G`. A NaN keeps its sign and the
leading bits of its payload. -/
def convert (F G : Format) (x : Nat) : Nat :=
  if F.isNaN x then
    let payload := (F.magnitude x - F.infinity) <<< G.fractionBits >>> F.fractionBits
    G.signed (F.negative x) (G.quiet (G.infinity + payload))
  else if F.isInfinite x then G.signed (F.negative x) G.infinity
  else G.signed (F.negative x) (G.nearest (F.units x * G.one) F.one)

end Format

namespace Word

/-- The integer that a word denotes under the given reading. -/
def value {w : Nat} (sign : Signedness) (x : BitVec w) : Int :=
  match sign with
  | .unsigned => x.toNat
  | .signed => x.toInt

end Word

/-- Exclusive bounds of the operands for which a truncation to an integer is defined. -/
structure TruncationRange where
  lower : Int
  upper : Int
  deriving DecidableEq, Inhabited

namespace TruncationRange

/-- The range of a truncation. Ideally one below the least and one above the greatest number of the
integer type, but the lower bound of signed types is rounded down to the nearest number that the
format can represent. -/
def ofTypes : IntType → FloatType → Signedness → TruncationRange
  | .i32, .f32, .signed => ⟨-2147483904, 2147483648⟩
  | .i32, .f32, .unsigned => ⟨-1, 4294967296⟩
  | .i32, .f64, .signed => ⟨-2147483649, 2147483648⟩
  | .i32, .f64, .unsigned => ⟨-1, 4294967296⟩
  | .i64, .f32, .signed => ⟨-9223373136366403584, 9223372036854775808⟩
  | .i64, .f32, .unsigned => ⟨-1, 18446744073709551616⟩
  | .i64, .f64, .signed => ⟨-9223372036854777856, 9223372036854775808⟩
  | .i64, .f64, .unsigned => ⟨-1, 18446744073709551616⟩

/-- The bounds are compared with the operand as patterns of its format. -/
def admits (r : TruncationRange) (F : Format) (x : Nat) : Bool :=
  FloatCompare.gt.eval F x (F.ofInteger r.lower) && FloatCompare.lt.eval F x (F.ofInteger r.upper)

end TruncationRange

inductive Conversion where
  | wrap
  | extend (sign : Signedness)
  | truncate (target : IntType) (source : FloatType) (sign : Signedness)
  | convert (target : FloatType) (source : IntType) (sign : Signedness)
  | demote
  | promote
  /-- Float bits as an integer of the same width. -/
  | bitsOfFloat (source : FloatType)
  /-- Integer bits as a float of the same width. -/
  | floatOfBits (source : IntType)
  deriving DecidableEq, Inhabited

namespace Conversion

/-- Every conversion, in the order of the opcodes. -/
def all : List Conversion :=
  [.wrap,
    .truncate .i32 .f32 .signed, .truncate .i32 .f32 .unsigned,
    .truncate .i32 .f64 .signed, .truncate .i32 .f64 .unsigned,
    .extend .signed, .extend .unsigned,
    .truncate .i64 .f32 .signed, .truncate .i64 .f32 .unsigned,
    .truncate .i64 .f64 .signed, .truncate .i64 .f64 .unsigned,
    .convert .f32 .i32 .signed, .convert .f32 .i32 .unsigned,
    .convert .f32 .i64 .signed, .convert .f32 .i64 .unsigned,
    .demote,
    .convert .f64 .i32 .signed, .convert .f64 .i32 .unsigned,
    .convert .f64 .i64 .signed, .convert .f64 .i64 .unsigned,
    .promote,
    .bitsOfFloat .f32, .bitsOfFloat .f64,
    .floatOfBits .i32, .floatOfBits .i64]

def name : Conversion → String
  | .wrap => "i32.wrap_i64"
  | .extend s => "i64.extend_i32" ++ s.suffix
  | .truncate t f s => t.name ++ ".trunc_" ++ f.name ++ s.suffix
  | .convert f t s => f.name ++ ".convert_" ++ t.name ++ s.suffix
  | .demote => "f32.demote_f64"
  | .promote => "f64.promote_f32"
  | .bitsOfFloat .f32 => "i32.reinterpret_f32"
  | .bitsOfFloat .f64 => "i64.reinterpret_f64"
  | .floatOfBits .i32 => "f32.reinterpret_i32"
  | .floatOfBits .i64 => "f64.reinterpret_i64"

/-- The effect of a conversion on a cell. Zero extension leaves the cell alone, because the upper
half of a well-formed 32-bit cell is zero already. -/
def eval (op : Conversion) (c : Cell) : Except TrapKind Cell :=
  match op with
  | .wrap => .ok (Cell.ofLow c.low)
  | .extend .signed => .ok (c.low.signExtend 64)
  | .extend .unsigned => .ok c
  | .truncate t f s =>
    let x := c.bitsOf f.valType
    if f.format.isNaN x then .error .invalidConversionToInteger
    else if (TruncationRange.ofTypes t f s).admits f.format x then
      .ok (Cell.ofWord t (BitVec.ofInt t.bits (f.format.truncate x)))
    else .error .integerOverflow
  | .convert f t s => .ok (BitVec.ofNat 64 (f.format.ofInteger (Word.value s (c.word t))))
  | .demote => .ok (BitVec.ofNat 64 (Format.binary64.convert .binary32 (c.bitsOf .f64)))
  | .promote => .ok (BitVec.ofNat 64 (Format.binary32.convert .binary64 (c.bitsOf .f32)))
  | .bitsOfFloat f => .ok (BitVec.ofNat 64 (c.bitsOf f.valType))
  | .floatOfBits t => .ok (Cell.ofWord t (c.word t))

end Conversion

end WasmEngine
