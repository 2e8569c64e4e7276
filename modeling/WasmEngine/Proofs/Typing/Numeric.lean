import Mathlib.Algebra.Group.Nat.Defs
import WasmEngine.Instruction
import WasmEngine.Store.Memory

/-!
# Signatures of the numeric instructions

The operand and result types of the instruction families, and the shape of the cells they produce.
Every result of the type `i32` has a zero upper half, whatever the operands are; no numeric
instruction traps without a reason.
-/
namespace WasmEngine
set_option autoImplicit false

namespace Conversion

def operandType : Conversion → ValType
  | .wrap => .i64
  | .extend _ => .i32
  | .truncate _ f _ => f.valType
  | .convert _ t _ => t.valType
  | .demote => .f64
  | .promote => .f32
  | .bitsOfFloat f => f.valType
  | .floatOfBits t => t.valType

def resultType : Conversion → ValType
  | .wrap => .i32
  | .extend _ => .i64
  | .truncate t _ _ => t.valType
  | .convert f _ _ => f.valType
  | .demote => .f32
  | .promote => .f64
  | .bitsOfFloat .f32 => .i32
  | .bitsOfFloat .f64 => .i64
  | .floatOfBits .i32 => .f32
  | .floatOfBits .i64 => .f64

end Conversion

namespace UnaryOp

def operandType : UnaryOp → ValType
  | .eqz t => t.valType
  | .int t _ => t.valType
  | .float t _ => t.valType
  | .convert op => op.operandType

def resultType : UnaryOp → ValType
  | .eqz _ => .i32
  | .int t _ => t.valType
  | .float t _ => t.valType
  | .convert op => op.resultType

end UnaryOp

namespace BinaryOp

def operandType : BinaryOp → ValType
  | .int t _ => t.valType
  | .intCompare t _ => t.valType
  | .float t _ => t.valType
  | .floatCompare t _ => t.valType

def resultType : BinaryOp → ValType
  | .int t _ => t.valType
  | .intCompare _ _ => .i32
  | .float t _ => t.valType
  | .floatCompare _ _ => .i32

end BinaryOp

namespace Cell

/-- A well-formed 32-bit cell is one whose upper half is zero. -/
theorem wellFormed_i32_iff (c : Cell) : c.wellFormed .i32 = true ↔ c >>> 32 = 0 := by
  have hc := c.isLt
  rw [wellFormed, decide_eq_true_iff, ← BitVec.toNat_inj, BitVec.toNat_ushiftRight,
    Nat.shiftRight_eq_div_pow]
  simp only [BitVec.toNat_zero, BitVec.ofNat_eq_ofNat]
  omega

/-- Only cells of the type `i32` can be ill-formed. -/
theorem wellFormed_of_ne {t : ValType} (h : t ≠ .i32) (c : Cell) : c.wellFormed t = true := by
  cases t with
  | i32 => exact absurd rfl h
  | i64 => rfl
  | f32 => rfl
  | f64 => rfl

theorem wellFormed_zero (t : ValType) : wellFormed t (0 : Cell) = true := by
  cases t <;> rfl

theorem wellFormed_of_lt {n : Nat} (t : ValType) (h : n < 4294967296) :
    wellFormed t (BitVec.ofNat 64 n) = true := by
  cases t with
  | i32 =>
    rw [wellFormed, decide_eq_true_iff, BitVec.toNat_ofNat]
    omega
  | i64 => rfl
  | f32 => rfl
  | f64 => rfl

theorem ofLow_wellFormed (x : BitVec 32) (t : ValType) : (ofLow x).wellFormed t = true := by
  have hx := x.isLt
  have he : ofLow x = BitVec.ofNat 64 x.toNat := by
    apply BitVec.eq_of_toNat_eq
    simp [ofLow]
  rw [he]
  exact wellFormed_of_lt t hx

theorem ofWord_wellFormed (t : IntType) (x : BitVec t.bits) :
    (ofWord t x).wellFormed t.valType = true := by
  cases t with
  | i32 => exact ofLow_wellFormed x .i32
  | i64 => rfl

theorem ofBool_wellFormed (b : Bool) (t : ValType) : (ofBool b).wellFormed t = true := by
  cases b <;> cases t <;> rfl

end Cell

namespace FloatType

theorem valType_ne_i32 (t : FloatType) : t.valType ≠ .i32 := by
  cases t <;> decide

end FloatType

/-- The reasons for which numeric instructions trap. -/
def TrapKind.numeric : List TrapKind :=
  [.integerDivideByZero, .integerOverflow, .invalidConversionToInteger]

namespace Conversion

theorem eval_wellFormed {op : Conversion} {c d : Cell} (h : op.eval c = .ok d) :
    d.wellFormed op.resultType = true := by
  cases op with
  | wrap =>
    obtain rfl := Except.ok.inj h
    exact Cell.ofLow_wellFormed _ _
  | extend s => rfl
  | truncate t f s =>
    simp only [eval] at h
    split at h
    · cases h
    · split at h
      · obtain rfl := Except.ok.inj h
        exact Cell.ofWord_wellFormed t _
      · cases h
  | convert f t s => exact Cell.wellFormed_of_ne f.valType_ne_i32 d
  | demote => exact Cell.wellFormed_of_ne (by decide) d
  | promote => exact Cell.wellFormed_of_ne (by decide) d
  | bitsOfFloat f =>
    cases f with
    | f32 =>
      obtain rfl := Except.ok.inj h
      exact Cell.wellFormed_of_lt .i32 c.low.isLt
    | f64 => exact Cell.wellFormed_of_ne (by decide) d
  | floatOfBits t => cases t <;> exact Cell.wellFormed_of_ne (by decide) d

theorem eval_error_numeric {op : Conversion} {c : Cell} {kind : TrapKind}
    (h : op.eval c = .error kind) : kind ∈ TrapKind.numeric := by
  cases op with
  | truncate t f s =>
    simp only [eval] at h
    split at h
    · cases h
      decide
    · split at h
      · cases h
      · cases h
        decide
  | extend s => cases s <;> cases h
  | wrap => cases h
  | convert f t s => cases h
  | demote => cases h
  | promote => cases h
  | bitsOfFloat f => cases h
  | floatOfBits t => cases h

end Conversion

namespace UnaryOp

/-- Whatever the operand is, the result is well-formed. -/
theorem eval_wellFormed {op : UnaryOp} {c d : Cell} (h : op.eval c = .ok d) :
    d.wellFormed op.resultType = true := by
  cases op with
  | eqz t =>
    obtain rfl := Except.ok.inj h
    exact Cell.ofBool_wellFormed _ _
  | int t op =>
    obtain rfl := Except.ok.inj h
    exact Cell.ofWord_wellFormed t _
  | float t op => exact Cell.wellFormed_of_ne t.valType_ne_i32 d
  | convert op => exact Conversion.eval_wellFormed h

theorem eval_error_numeric {op : UnaryOp} {c : Cell} {kind : TrapKind}
    (h : op.eval c = .error kind) : kind ∈ TrapKind.numeric := by
  cases op with
  | eqz t => cases h
  | int t op => cases h
  | float t op => cases h
  | convert op => exact Conversion.eval_error_numeric h

end UnaryOp

theorem IntBinary.eval_error_numeric {w : Nat} {op : IntBinary} {x y : BitVec w} {kind : TrapKind}
    (h : op.eval x y = .error kind) : kind ∈ TrapKind.numeric := by
  cases op with
  | div s =>
    simp only [eval, Word.divide] at h
    repeat' split at h
    all_goals cases h <;> decide
  | rem s =>
    simp only [eval, Word.remainder] at h
    repeat' split at h
    all_goals cases h <;> decide
  | add => cases h
  | sub => cases h
  | mul => cases h
  | and => cases h
  | or => cases h
  | xor => cases h
  | shl => cases h
  | shr s => cases h
  | rotl => cases h
  | rotr => cases h

namespace BinaryOp

/-- Whatever the operands are, the result is well-formed. -/
theorem eval_wellFormed {op : BinaryOp} {x y d : Cell} (h : op.eval x y = .ok d) :
    d.wellFormed op.resultType = true := by
  cases op with
  | int t op =>
    simp only [eval] at h
    cases he : op.eval (x.word t) (y.word t) with
    | error kind => rw [he] at h; cases h
    | ok z =>
      rw [he] at h
      obtain rfl := Except.ok.inj h
      exact Cell.ofWord_wellFormed t z
  | intCompare t op =>
    obtain rfl := Except.ok.inj h
    exact Cell.ofBool_wellFormed _ _
  | float t op => exact Cell.wellFormed_of_ne t.valType_ne_i32 d
  | floatCompare t op =>
    obtain rfl := Except.ok.inj h
    exact Cell.ofBool_wellFormed _ _

theorem eval_error_numeric {op : BinaryOp} {x y : Cell} {kind : TrapKind}
    (h : op.eval x y = .error kind) : kind ∈ TrapKind.numeric := by
  cases op with
  | int t op =>
    simp only [eval] at h
    cases he : op.eval (x.word t) (y.word t) with
    | ok z => rw [he] at h; cases h
    | error k =>
      rw [he] at h
      obtain rfl := Except.error.inj h
      exact IntBinary.eval_error_numeric he
  | intCompare t op => cases h
  | float t op => cases h
  | floatCompare t op => cases h

end BinaryOp

namespace LoadOp

/-- A number read from `width` bytes fits into them. -/
theorem read_lt (memory : Memory) (width : Nat) :
    ∀ address, memory.read address width < 2 ^ (8 * width) := by
  induction width with
  | zero => exact fun _ => Nat.one_pos
  | succ width ih =>
    intro address
    have hb := (memory.byte address).toNat_lt
    have hr := ih (address + 1)
    have hp : 2 ^ (8 * (width + 1)) = 2 ^ (8 * width) * 256 := Nat.pow_add 2 (8 * width) 8
    rw [Memory.read, hp]
    omega

theorem extend_wellFormed {width n : Nat} (t : IntType) (s : Signedness) (h : n < 4294967296) :
    (extend width t s n).wellFormed t.valType = true := by
  cases s with
  | signed => exact Cell.ofWord_wellFormed t _
  | unsigned => exact Cell.wellFormed_of_lt _ h

/-- The cell of a load is well-formed, also where the bytes read are sign-extended. -/
theorem decode_wellFormed (op : LoadOp) (memory : Memory) (address : Nat) :
    (op.decode (memory.read address op.width)).wellFormed op.resultType = true := by
  have hr := read_lt memory op.width address
  cases op with
  | full t =>
    cases t with
    | i32 => exact Cell.wellFormed_of_lt .i32 hr
    | i64 => rfl
    | f32 => rfl
    | f64 => rfl
  | packed8 t s =>
    have hw : 2 ^ 8 < 4294967296 := by decide
    exact extend_wellFormed t s (Nat.lt_trans hr hw)
  | packed16 t s =>
    have hw : 2 ^ 16 < 4294967296 := by decide
    exact extend_wellFormed t s (Nat.lt_trans hr hw)
  | packed32 s => exact extend_wellFormed .i64 s hr

end LoadOp

end WasmEngine
