import Bytecode.Chunk.DecodeError
import Bytecode.Machine.Files
import Bytecode.Machine.Trap
import Bytecode.Text.Utf8
import Bytecode.Verify.Error

/-!
# Failures

What an operation of the machine fails with. Each failure has a status for embedding code and a
message for people.
-/

namespace Bytecode

/-- What a name was given for. -/
inductive NameUse where
  | function
  | global
  deriving DecidableEq, Repr

def NameUse.text : NameUse → String
  | .function => "function"
  | .global => "global"

/-- Why an operation of the machine failed. -/
inductive Failure where
  /-- A name is empty. -/
  | emptyName (use : NameUse)
  /-- A value is needed and the window is empty. -/
  | emptyStack
  /-- A global is not bound. -/
  | globalNotFound (name : String)
  /-- A function is neither registered nor defined. -/
  | functionNotFound (name : String)
  /-- A function takes another number of arguments. -/
  | arityMismatch (name : String) (expected found : Nat)
  /-- A call asks for more arguments than the window holds. -/
  | notEnoughArguments (requested available : Nat)
  /-- Nested calls are at their limit. -/
  | callDepthExceeded (limit : Nat)
  /-- There are no bytes to load. -/
  | emptyChunk
  /-- A file cannot be read. -/
  | cannotRead (path : Bytes) (cause : FileError)
  /-- A file cannot be written. -/
  | cannotWrite (path : Bytes) (cause : FileError)
  /-- There is no chunk to save. -/
  | noChunk
  /-- Bytes are not an encoded chunk. -/
  | malformed (cause : DecodeError)
  /-- A chunk does not pass verification. -/
  | unverified (errors : List VerifyError)
  /-- Bytecode trapped. -/
  | trapped (trap : Trap)
  /-- A host function reported a failure. -/
  | hostFailed (name : String) (status : Status)
  deriving DecidableEq, Repr

namespace Failure

def message : Failure → String
  | .emptyName use => s!"empty {use.text} name"
  | .emptyStack => "stack is empty"
  | .globalNotFound name => s!"global '{name}' not found"
  | .functionNotFound name => s!"function '{name}' not found"
  | .arityMismatch name expected found =>
    s!"function '{name}' takes {expected} arguments, got {found}"
  | .notEnoughArguments requested available =>
    s!"call wants {requested} arguments but the stack holds {available}"
  | .callDepthExceeded limit => s!"call depth exceeded (limit {limit})"
  | .emptyChunk => "chunk buffer is empty"
  | .cannotRead path cause => s!"cannot read '{Text.Utf8.decodeLossy path}': {cause.message}"
  | .cannotWrite path cause => s!"cannot write '{Text.Utf8.decodeLossy path}': {cause.message}"
  | .noChunk => "no chunk loaded"
  | .malformed cause => s!"malformed chunk: {cause.message}"
  | .unverified errors =>
    "chunk failed verification: " ++ "; ".intercalate (errors.map VerifyError.message)
  | .trapped trap => trap.message
  | .hostFailed name status => s!"host function '{name}' failed: {status.name}"

/-- The status reported for a failure. A host function's own status is passed on. -/
def status : Failure → Status
  | .emptyName _ | .arityMismatch _ _ _ | .notEnoughArguments _ _ | .emptyStack | .emptyChunk
  | .noChunk => .invalidArgument
  | .globalNotFound _ | .functionNotFound _ | .cannotRead _ _ => .notFound
  | .cannotWrite _ _ => .runtimeError
  | .callDepthExceeded _ => .memoryError
  | .malformed _ | .unverified _ => .verifyError
  | .trapped trap => trap.status
  | .hostFailed _ status => status

end Failure

/-- How an operation that can fail ends. -/
abbrev Reply := Except Failure Unit

/-- The status of a reply. -/
def Reply.status : Reply → Status
  | .ok () => .ok
  | .error failure => failure.status

end Bytecode
