import Bytecode.Instruction.Opcode
import Bytecode.Machine.Status
import Bytecode.Value.TypeTag

/-!
# Traps

A trap ends the bytecode that raised it. It says what went wrong and in which instruction of which
function.
-/

namespace Bytecode

/-- What went wrong while bytecode ran. -/
inductive TrapKind where
  /-- Integer division or remainder by zero. -/
  | divisionByZero
  /-- An operand has a type the operation does not take. -/
  | typeMismatch (op : Opcode) (found : TypeTag)
  /-- A frame has too few operands. -/
  | stackUnderflow
  /-- The stack is at its limit. -/
  | stackOverflow (limit : Nat)
  /-- Nested calls are at their limit. -/
  | callDepthExceeded (limit : Nat)
  /-- An operand refers outside the chunk or the frame. -/
  | invalidOperand (index : UInt16)
  /-- A global is not bound. -/
  | unknownGlobal (name : String)
  /-- No host function has this name. -/
  | unknownHostFunction (name : String)
  /-- A host function is called with another number of arguments than it was registered for. -/
  | hostArityMismatch (name : String) (expected found : Nat)
  /-- A host function left other than one value for its bytecode caller. -/
  | hostResultCount (name : String) (count : Nat)
  /-- A host function reported a failure. -/
  | hostFailed (name : String) (status : Status)
  deriving DecidableEq, Repr

/-- A trap and where it was raised. -/
structure Trap where
  kind : TrapKind
  /-- The name of the function that trapped. -/
  function : String
  /-- The index of the instruction that trapped. -/
  pc : Nat
  deriving DecidableEq, Repr

def TrapKind.message : TrapKind → String
  | .divisionByZero => "division by zero"
  | .typeMismatch op found => s!"{op.mnemonic} cannot take a {found.name} operand"
  | .stackUnderflow => "stack underflow"
  | .stackOverflow limit => s!"stack overflow (limit {limit})"
  | .callDepthExceeded limit => s!"call depth exceeded (limit {limit})"
  | .invalidOperand index => s!"invalid operand {index.toNat}"
  | .unknownGlobal name => s!"unknown global '{name}'"
  | .unknownHostFunction name => s!"unknown host function '{name}'"
  | .hostArityMismatch name expected found =>
    s!"host function '{name}' takes {expected} arguments, got {found}"
  | .hostResultCount name count => s!"host function '{name}' left {count} results, expected 1"
  | .hostFailed name status => s!"host function '{name}' failed: {status.name}"

/-- The status reported for a trap. A host function's own status is passed on. -/
def TrapKind.status : TrapKind → Status
  | .typeMismatch _ _ => .typeError
  | .stackOverflow _ | .callDepthExceeded _ => .memoryError
  | .hostFailed _ status => status
  | .divisionByZero | .stackUnderflow | .invalidOperand _ | .unknownGlobal _
  | .unknownHostFunction _ | .hostArityMismatch _ _ _ | .hostResultCount _ _ => .runtimeError

namespace Trap

def message (trap : Trap) : String :=
  s!"{trap.kind.message} in function '{trap.function}' at instruction {trap.pc}"

def status (trap : Trap) : Status :=
  trap.kind.status

end Trap

end Bytecode
