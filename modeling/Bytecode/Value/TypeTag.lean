/-!
# Type tags

A tag names the type of a value. The same byte stands for it in the constant pool and in the
operand of the type test; one further tag says that an instruction takes no type.
-/

namespace Bytecode

/-- The type of a value, or the absence of a type operand. -/
inductive TypeTag where
  /-- No type, or not applicable. -/
  | none
  /-- Signed 64-bit integer. -/
  | i64
  /-- Binary floating point of 64 bits. -/
  | f64
  /-- Boolean. -/
  | bool
  /-- The unit value. -/
  | null
  /-- Byte string. -/
  | str
  deriving DecidableEq, Repr

namespace TypeTag

/-- All tags, in the order of their bytes. -/
def all : List TypeTag :=
  [.none, .i64, .f64, .bool, .null, .str]

/-- The byte that stands for a tag. -/
def byte : TypeTag → UInt8
  | .none => 0
  | .i64 => 1
  | .f64 => 2
  | .bool => 3
  | .null => 4
  | .str => 5

/-- The tag a byte stands for; bytes above the last tag are reserved. -/
def ofByte? (byte : UInt8) : Option TypeTag :=
  all.find? fun tag ↦ tag.byte == byte

theorem ofByte?_byte (tag : TypeTag) : ofByte? tag.byte = some tag := by
  cases tag <;> rfl

/-- The name of a tag in messages. -/
def name : TypeTag → String
  | .none => "none"
  | .i64 => "i64"
  | .f64 => "f64"
  | .bool => "bool"
  | .null => "null"
  | .str => "string"

/-- The tag of this name. -/
def ofName? (name : String) : Option TypeTag :=
  all.find? fun tag ↦ tag.name == name

/-- Whether a value can carry the tag. -/
def isValueType (tag : TypeTag) : Bool :=
  tag != .none

end TypeTag

end Bytecode
