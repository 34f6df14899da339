import Bytecode.Instruction.Basic

/-!
# Verification errors

Every error names the function it was found in, by its index in the table, and where it applies the
instruction. The verifier reports all errors it finds.
-/

namespace Bytecode

/-- What is wrong with a decoded chunk. -/
inductive VerifyError where
  /-- The constant pool is larger than an operand can address. -/
  | tooManyConstants (count : Nat)
  /-- The function table is too large. -/
  | tooManyFunctions (count : Nat)
  /-- The code of a function is larger than an operand can address. -/
  | functionTooLarge (function size : Nat)
  /-- A function has no code. -/
  | emptyFunction (function : Nat)
  /-- A function has the empty name. -/
  | emptyFunctionName (function : Nat)
  /-- A function has the name of an earlier one. -/
  | duplicateFunction (function : Nat) (name : String)
  /-- A function has fewer local slots than arguments. -/
  | localsBelowArity (function : Nat) (arity locals : UInt16)
  /-- A field that the opcode does not use is not zero. -/
  | nonZeroUnusedField (function pc : Nat)
  /-- There is no such constant. -/
  | constantOutOfRange (function pc : Nat) (index : UInt16)
  /-- There is no such local slot. -/
  | localOutOfRange (function pc : Nat) (index locals : UInt16)
  /-- There is no such function. -/
  | functionOutOfRange (function pc : Nat) (index : UInt16)
  /-- There is no such instruction to continue at. -/
  | jumpOutOfRange (function pc : Nat) (target : UInt16)
  /-- The constant is no name, that is, no non-empty string. -/
  | nameNotString (function pc : Nat) (index : UInt16)
  /-- A call passes another number of arguments than the callee takes. -/
  | callArityMismatch (function pc : Nat) (expected found : UInt16)
  /-- A type test without the type of a value. -/
  | invalidTypeOperand (function pc : Nat)
  /-- Execution can run past the last instruction. -/
  | missingReturn (function : Nat)
  /-- An instruction takes more operands than there are. -/
  | stackUnderflow (function pc : Nat)
  /-- Two paths reach an instruction with different numbers of operands. -/
  | stackHeightMismatch (function pc expected found : Nat)
  /-- An instruction leaves more operands than a frame may hold. -/
  | stackTooDeep (function pc depth : Nat)
  deriving DecidableEq, Repr

namespace VerifyError

/-- The index of the function the error was found in, if it concerns one. -/
def function? : VerifyError → Option Nat
  | .tooManyConstants _ | .tooManyFunctions _ => none
  | .functionTooLarge function _
  | .emptyFunction function
  | .emptyFunctionName function
  | .duplicateFunction function _
  | .localsBelowArity function _ _
  | .nonZeroUnusedField function _
  | .constantOutOfRange function _ _
  | .localOutOfRange function _ _ _
  | .functionOutOfRange function _ _
  | .jumpOutOfRange function _ _
  | .nameNotString function _ _
  | .callArityMismatch function _ _ _
  | .invalidTypeOperand function _
  | .missingReturn function
  | .stackUnderflow function _
  | .stackHeightMismatch function _ _ _
  | .stackTooDeep function _ _ => some function

/-- The place of an error inside a function. -/
def place (function pc : Nat) : String :=
  s!"in function {function} at instruction {pc}"

def message : VerifyError → String
  | .tooManyConstants count => s!"too many constants: {count} (max 65536)"
  | .tooManyFunctions count => s!"too many functions: {count} (max 4096)"
  | .functionTooLarge function size =>
    s!"function {function} too large: {size} instructions (max 65536)"
  | .emptyFunction function => s!"function {function} has no instructions"
  | .emptyFunctionName function => s!"function {function} has an empty name"
  | .duplicateFunction function name => s!"function {function} redefines '{name}'"
  | .localsBelowArity function arity locals =>
    s!"function {function} declares {locals.toNat} locals for {arity.toNat} arguments"
  | .nonZeroUnusedField function pc => s!"non-zero unused field {place function pc}"
  | .constantOutOfRange function pc index =>
    s!"constant {index.toNat} out of range {place function pc}"
  | .localOutOfRange function pc index locals =>
    s!"local {index.toNat} out of range (locals {locals.toNat}) {place function pc}"
  | .functionOutOfRange function pc index =>
    s!"call to function {index.toNat} out of range {place function pc}"
  | .jumpOutOfRange function pc target =>
    s!"jump target {target.toNat} out of range {place function pc}"
  | .nameNotString function pc index =>
    s!"constant {index.toNat} is not a string name {place function pc}"
  | .callArityMismatch function pc expected found =>
    s!"call passes {found.toNat} arguments, callee expects {expected.toNat}, {place function pc}"
  | .invalidTypeOperand function pc => s!"IS_TYPE needs a value type {place function pc}"
  | .missingReturn function => s!"function {function} does not end with RET or JUMP"
  | .stackUnderflow function pc => s!"stack underflow {place function pc}"
  | .stackHeightMismatch function pc expected found =>
    s!"stack height mismatch {place function pc}: {expected} vs {found}"
  | .stackTooDeep function pc depth => s!"operand depth {depth} too large {place function pc}"

end VerifyError

end Bytecode
