/-!
# Types of values and entities

The static vocabulary of a module: types of values, functions, tables, memories and globals, and the
four kinds of entities that cross a module boundary.
-/
namespace WasmEngine
set_option autoImplicit false

/-- The type of an operand, a local or a global. -/
inductive ValType where
  | i32
  | i64
  | f32
  | f64
  deriving DecidableEq, Inhabited

namespace ValType

def all : List ValType := [.i32, .i64, .f32, .f64]

def name : ValType → String
  | .i32 => "i32"
  | .i64 => "i64"
  | .f32 => "f32"
  | .f64 => "f64"

/-- The byte that stands for the type in the binary format. -/
def code : ValType → Nat
  | .i32 => 0x7f
  | .i64 => 0x7e
  | .f32 => 0x7d
  | .f64 => 0x7c

def ofName? (s : String) : Option ValType := all.find? (·.name == s)

/-- The number of bytes a value of the type takes in linear memory. -/
def byteWidth : ValType → Nat
  | .i32 | .f32 => 4
  | .i64 | .f64 => 8

end ValType

/-- The integer types, by which the integer instructions are indexed. -/
inductive IntType where
  | i32
  | i64
  deriving DecidableEq, Inhabited

/-- The floating-point types, by which the floating-point instructions are indexed. -/
inductive FloatType where
  | f32
  | f64
  deriving DecidableEq, Inhabited

namespace IntType

def bits : IntType → Nat
  | .i32 => 32
  | .i64 => 64

def valType : IntType → ValType
  | .i32 => .i32
  | .i64 => .i64

def name (t : IntType) : String := t.valType.name

end IntType

namespace FloatType

def valType : FloatType → ValType
  | .f32 => .f32
  | .f64 => .f64

def name (t : FloatType) : String := t.valType.name

end FloatType

/-- How an integer instruction reads its operands. -/
inductive Signedness where
  | signed
  | unsigned
  deriving DecidableEq, Inhabited

namespace Signedness

/-- The last part of a mnemonic whose meaning depends on the sign. -/
def suffix : Signedness → String
  | .signed => "_s"
  | .unsigned => "_u"

end Signedness

/-- Parameter and result types of a function; a validated function has at most one result. -/
structure FuncType where
  inputs : List ValType := []
  outputs : List ValType := []
  deriving DecidableEq, Inhabited

/-- The declared size range of a table (in elements) or a memory (in pages). -/
structure Limits where
  min : Nat := 0
  max : Option Nat := none
  deriving DecidableEq, Inhabited

namespace Limits

def admits (l : Limits) (size : Nat) : Bool :=
  l.min ≤ size && l.max.all (size ≤ ·)

/-- The largest size that neither the declared maximum nor `ceiling` forbids. -/
def top (l : Limits) (ceiling : Nat) : Nat :=
  match l.max with
  | none => ceiling
  | some m => Nat.min m ceiling

end Limits

structure GlobalType where
  valType : ValType
  isMutable : Bool := false
  deriving DecidableEq, Inhabited

inductive EntityKind where
  | function
  | table
  | memory
  | global
  deriving DecidableEq, Inhabited

namespace EntityKind

def all : List EntityKind := [.function, .table, .memory, .global]

def name : EntityKind → String
  | .function => "function"
  | .table => "table"
  | .memory => "memory"
  | .global => "global"

/-- The byte that stands for the kind in the binary format. -/
def code : EntityKind → Nat
  | .function => 0
  | .table => 1
  | .memory => 2
  | .global => 3

def ofName? (s : String) : Option EntityKind := all.find? (·.name == s)

end EntityKind

inductive EntityType where
  | function (type : FuncType)
  | table (limits : Limits)
  | memory (limits : Limits)
  | global (type : GlobalType)
  deriving DecidableEq, Inhabited

namespace EntityType

def kind : EntityType → EntityKind
  | .function _ => .function
  | .table _ => .table
  | .memory _ => .memory
  | .global _ => .global

end EntityType

end WasmEngine
