import Bytecode.Bytes
import Bytecode.Value.TypeTag

/-!
# Values

What lives on the stack, in globals and in the constant pool. A float is kept as its bit pattern,
so that equality of values is equality of bits: a NaN equals itself and the two zeros differ.
-/

namespace Bytecode

/-- A value of the machine. -/
inductive Value where
  /-- Signed 64-bit integer. -/
  | i64 (n : Int64)
  /-- Binary floating point, as its bit pattern. -/
  | f64 (bits : UInt64)
  /-- Boolean. -/
  | bool (b : Bool)
  /-- The unit value, which also pads grown stack slots. -/
  | null
  /-- Byte string. It need not be text. -/
  | str (bytes : Bytes)
  deriving DecidableEq, Repr

namespace Value

instance : Inhabited Value := ⟨.null⟩

/-- The type of a value. -/
def tag : Value → TypeTag
  | .i64 _ => .i64
  | .f64 _ => .f64
  | .bool _ => .bool
  | .null => .null
  | .str _ => .str

theorem isValueType_tag (v : Value) : v.tag.isValueType = true := by
  cases v <;> rfl

/-! ## Typed views -/

/-- The integer, if the value is one. -/
def asI64? : Value → Option Int64
  | .i64 n => some n
  | _ => none

/-- The bits of the float, if the value is one. -/
def asF64? : Value → Option UInt64
  | .f64 bits => some bits
  | _ => none

/-- The boolean, if the value is one. -/
def asBool? : Value → Option Bool
  | .bool b => some b
  | _ => none

/-- The bytes of the string, if the value is one. -/
def asBytes? : Value → Option Bytes
  | .str bytes => some bytes
  | _ => none

/-- Whether the value is the unit value. -/
def isNull : Value → Bool
  | .null => true
  | _ => false

end Value

end Bytecode
