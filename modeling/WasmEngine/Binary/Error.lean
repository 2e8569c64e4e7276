/-!
# Decoding errors
-/
namespace WasmEngine
set_option autoImplicit false

inductive DecodeError where
  | unexpectedEnd
  /-- The last byte of a number has bits beyond the width of its type. -/
  | unusedBits
  /-- A number goes on beyond the bytes its type can need. -/
  | tooManyBytes
  | invalidUtf8
  /-- A subsection holds more bytes than its content. -/
  | sizeMismatch
  deriving DecidableEq, Inhabited

def DecodeError.message : DecodeError → String
  | .unexpectedEnd => "unexpected EOF"
  | .unusedBits => "invalid LEB128 encoding: unused bits set"
  | .tooManyBytes => "invalid LEB128 encoding: too many bytes"
  | .invalidUtf8 => "invalid UTF-8"
  | .sizeMismatch => "name subsection size mismatch"

/-- Reads an item from the front of a byte string and returns the bytes after it. -/
abbrev Reader (α : Type) := List UInt8 → Except DecodeError (α × List UInt8)

end WasmEngine
