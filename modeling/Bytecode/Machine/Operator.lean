import Bytecode.Machine.Trap
import Bytecode.Value.Basic
import Bytecode.Value.Binary64

/-!
# Operators

What the operators compute. Integers wrap around modulo `2 ^ 64`, with a quotient truncated toward
zero and a remainder with the sign of the dividend; floats follow their own arithmetic and meet
integers nowhere. Operands of other types are refused, and the trap names the type at fault: that of
the left operand, unless the operator could take it.
-/

namespace Bytecode

/-- Refuse an operand. -/
def mismatch {α : Type} (op : Opcode) (found : Value) : Except TrapKind α :=
  .error (.typeMismatch op found.tag)

namespace UnaryOp

/-- The result of an operator on one operand. -/
def apply : UnaryOp → Value → Except TrapKind Value
  | .neg, .i64 x => .ok (.i64 (-x))
  | .neg, .f64 x => .ok (.f64 (Binary64.neg x))
  | .not, .bool b => .ok (.bool (!b))
  | op, other => mismatch (.unary op) other

end UnaryOp

namespace BinaryOp

/-! ## Arithmetic -/

/-- Refuse operands that are not two numbers of one type. -/
def numericMismatch (op : BinaryOp) (a b : Value) : Except TrapKind Value :=
  match a with
  | .i64 _ | .f64 _ => mismatch (.binary op) b
  | _ => mismatch (.binary op) a

/-- An operation on two integers or two floats. -/
def arithmetic (op : BinaryOp) (onI64 : Int64 → Int64 → Int64) (onF64 : UInt64 → UInt64 → UInt64)
    (a b : Value) : Except TrapKind Value :=
  match a, b with
  | .i64 x, .i64 y => .ok (.i64 (onI64 x y))
  | .f64 x, .f64 y => .ok (.f64 (onF64 x y))
  | _, _ => op.numericMismatch a b

/-- An operation on two integers, the second of which is not zero, or two floats. -/
def division (op : BinaryOp) (onI64 : Int64 → Int64 → Int64) (onF64 : UInt64 → UInt64 → UInt64)
    (a b : Value) : Except TrapKind Value :=
  match a, b with
  | .i64 x, .i64 y => if y = 0 then .error .divisionByZero else .ok (.i64 (onI64 x y))
  | .f64 x, .f64 y => .ok (.f64 (onF64 x y))
  | _, _ => op.numericMismatch a b

/-! ## Comparison -/

/-- Equality as programs see it: floats compare as numbers, all else as values. -/
def equal : Value → Value → Bool
  | .i64 x, .i64 y => x == y
  | .f64 x, .f64 y => Binary64.equal x y
  | .bool x, .bool y => x == y
  | .null, .null => true
  | .str x, .str y => x == y
  | _, _ => false

/-- The order of two integers, two floats or two strings; `none` for floats without an order. -/
def order (op : BinaryOp) (a b : Value) : Except TrapKind (Option Ordering) :=
  match a, b with
  | .i64 x, .i64 y => .ok (some (compareOfLessAndEq x y))
  | .f64 x, .f64 y => .ok (Binary64.compare? x y)
  | .str x, .str y => .ok (some (Bytes.compare x y))
  | .i64 _, other | .f64 _, other | .str _, other => mismatch (.binary op) other
  | other, _ => mismatch (.binary op) other

/-- A test of the order of two operands. Operands without an order pass no test. -/
def ordering (op : BinaryOp) (test : Ordering → Bool) (a b : Value) : Except TrapKind Value := do
  match ← op.order a b with
  | some found => return .bool (test found)
  | none => return .bool false

/-! ## Logic and strings -/

/-- An operation on two booleans. -/
def logic (op : BinaryOp) (onBool : Bool → Bool → Bool) (a b : Value) : Except TrapKind Value :=
  match a, b with
  | .bool x, .bool y => .ok (.bool (onBool x y))
  | .bool _, other => mismatch (.binary op) other
  | other, _ => mismatch (.binary op) other

/-- Two strings, one after the other. -/
def joined (op : BinaryOp) (a b : Value) : Except TrapKind Value :=
  match a, b with
  | .str x, .str y => .ok (.str (x ++ y))
  | .str _, other => mismatch (.binary op) other
  | other, _ => mismatch (.binary op) other

/-! ## All operators -/

/-- The result of an operator on two operands, `a` the one pushed first. -/
def apply (op : BinaryOp) (a b : Value) : Except TrapKind Value :=
  match op with
  | .add => op.arithmetic (· + ·) Binary64.add a b
  | .sub => op.arithmetic (· - ·) Binary64.sub a b
  | .mul => op.arithmetic (· * ·) Binary64.mul a b
  | .div => op.division (· / ·) Binary64.div a b
  | .mod => op.division (· % ·) Binary64.rem a b
  | .eq => .ok (.bool (equal a b))
  | .neq => .ok (.bool (!equal a b))
  | .lt => op.ordering (· == .lt) a b
  | .gt => op.ordering (· == .gt) a b
  | .lte => op.ordering (· != .gt) a b
  | .gte => op.ordering (· != .lt) a b
  | .and => op.logic (· && ·) a b
  | .or => op.logic (· || ·) a b
  | .concat => op.joined a b

end BinaryOp

end Bytecode
