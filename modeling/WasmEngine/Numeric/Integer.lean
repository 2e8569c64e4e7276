import WasmEngine.Types
import WasmEngine.Trap

/-!
# Integer operations

The integer instructions over words of any width. Division and remainder are the only ones that
can trap; shifts and rotations take their amount modulo the width.
-/
namespace WasmEngine
set_option autoImplicit false

inductive IntUnary where
  | clz
  | ctz
  | popcnt
  deriving DecidableEq, Inhabited

inductive IntBinary where
  | add
  | sub
  | mul
  | div (sign : Signedness)
  | rem (sign : Signedness)
  | and
  | or
  | xor
  | shl
  | shr (sign : Signedness)
  | rotl
  | rotr
  deriving DecidableEq, Inhabited

inductive IntCompare where
  | eq
  | ne
  | lt (sign : Signedness)
  | gt (sign : Signedness)
  | le (sign : Signedness)
  | ge (sign : Signedness)
  deriving DecidableEq, Inhabited

namespace Word

variable {w : Nat}

/-- Division toward zero. The quotient of the least signed word by minus one does not fit. -/
def divide (sign : Signedness) (x y : BitVec w) : Except TrapKind (BitVec w) :=
  if y = 0 then .error .integerDivideByZero
  else match sign with
    | .unsigned => .ok (x / y)
    | .signed =>
      if x = BitVec.intMin w ∧ y = BitVec.allOnes w then .error .integerOverflow
      else .ok (x.sdiv y)

/-- Remainder of the division toward zero, with the sign of the dividend. That by minus one is zero,
also where the quotient does not fit. -/
def remainder (sign : Signedness) (x y : BitVec w) : Except TrapKind (BitVec w) :=
  if y = 0 then .error .integerDivideByZero
  else match sign with
    | .unsigned => .ok (x % y)
    | .signed => if y = BitVec.allOnes w then .ok 0 else .ok (x.srem y)

def shiftLeft (x y : BitVec w) : BitVec w := x <<< (y.toNat % w)

def shiftRight (sign : Signedness) (x y : BitVec w) : BitVec w :=
  match sign with
  | .unsigned => x >>> (y.toNat % w)
  | .signed => x.sshiftRight (y.toNat % w)

def lessThan (sign : Signedness) (x y : BitVec w) : Bool :=
  match sign with
  | .unsigned => x.ult y
  | .signed => x.slt y

end Word

namespace IntUnary

def name : IntUnary → String
  | .clz => "clz"
  | .ctz => "ctz"
  | .popcnt => "popcnt"

def eval {w : Nat} (op : IntUnary) (x : BitVec w) : BitVec w :=
  match op with
  | .clz => x.clz
  | .ctz => x.ctz
  | .popcnt => x.cpop

end IntUnary

namespace IntBinary

def all : List IntBinary :=
  [.add, .sub, .mul, .div .signed, .div .unsigned, .rem .signed, .rem .unsigned, .and, .or, .xor,
    .shl, .shr .signed, .shr .unsigned, .rotl, .rotr]

def name : IntBinary → String
  | .add => "add"
  | .sub => "sub"
  | .mul => "mul"
  | .div s => "div" ++ s.suffix
  | .rem s => "rem" ++ s.suffix
  | .and => "and"
  | .or => "or"
  | .xor => "xor"
  | .shl => "shl"
  | .shr s => "shr" ++ s.suffix
  | .rotl => "rotl"
  | .rotr => "rotr"

def eval {w : Nat} (op : IntBinary) (x y : BitVec w) : Except TrapKind (BitVec w) :=
  match op with
  | .add => .ok (x + y)
  | .sub => .ok (x - y)
  | .mul => .ok (x * y)
  | .div s => Word.divide s x y
  | .rem s => Word.remainder s x y
  | .and => .ok (x &&& y)
  | .or => .ok (x ||| y)
  | .xor => .ok (x ^^^ y)
  | .shl => .ok (Word.shiftLeft x y)
  | .shr s => .ok (Word.shiftRight s x y)
  | .rotl => .ok (x.rotateLeft y.toNat)
  | .rotr => .ok (x.rotateRight y.toNat)

end IntBinary

namespace IntCompare

def all : List IntCompare :=
  [.eq, .ne, .lt .signed, .lt .unsigned, .gt .signed, .gt .unsigned, .le .signed, .le .unsigned,
    .ge .signed, .ge .unsigned]

def name : IntCompare → String
  | .eq => "eq"
  | .ne => "ne"
  | .lt s => "lt" ++ s.suffix
  | .gt s => "gt" ++ s.suffix
  | .le s => "le" ++ s.suffix
  | .ge s => "ge" ++ s.suffix

def eval {w : Nat} (op : IntCompare) (x y : BitVec w) : Bool :=
  match op with
  | .eq => x == y
  | .ne => x != y
  | .lt s => Word.lessThan s x y
  | .gt s => Word.lessThan s y x
  | .le s => !Word.lessThan s y x
  | .ge s => !Word.lessThan s x y

end IntCompare

end WasmEngine
