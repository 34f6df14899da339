import Bytecode.Machine.Status

/-!
# The error state

A machine keeps its most recent failure until it is cleared. Every failure is noted in the journal
and told to the listener, if one is installed; the listener turns the message into a note of its
own, which goes into the journal too. Nothing that listens can touch the machine.
-/

namespace Bytecode

/-- A line of the machine's log. -/
inductive LogEntry where
  /-- A host function was registered; `replaced` if one had the name before. -/
  | registered (name : String) (arity : Nat) (replaced : Bool)
  /-- Host code calls a host function. -/
  | hostCalled (name : String) (arguments : Nat)
  /-- Host code calls a bytecode function. -/
  | codeCalled (name : String) (arguments : Nat)
  /-- A chunk was loaded; `replacing` if there was one before. -/
  | loaded (constants functions : Nat) (replacing : Bool)
  /-- A failure was recorded. -/
  | failed (status : Status) (message : String)
  deriving DecidableEq, Repr

/-- Whether an entry is a warning. The others are for debugging. -/
def LogEntry.isWarning : LogEntry → Bool
  | .failed _ _ => true
  | _ => false

def LogEntry.text : LogEntry → String
  | .registered name arity replaced =>
    s!"registered host function '{name}' (arity {arity}, replaced: {replaced})"
  | .hostCalled name arguments => s!"call host '{name}' with {arguments} arguments"
  | .codeCalled name arguments => s!"call bytecode '{name}' with {arguments} arguments"
  | .loaded constants functions replacing =>
    s!"loaded chunk: {constants} constants, {functions} functions (replacing: {replacing})"
  | .failed status message => s!"{status.name}: {message}"

/-- What happens around a machine, for those who watch it. `ν` is the type of the notes that
listeners and host code leave. -/
inductive Event (ν : Type) where
  | logged (entry : LogEntry)
  /-- The listener was told of a failure. -/
  | heard (note : ν)
  /-- Host code left a note. -/
  | noted (note : ν)
  deriving DecidableEq, Repr

/-- What a listener makes of the message of a failure. -/
abbrev Listener (ν : Type) := String → ν

/-- The most recent failure. -/
structure ErrorRecord where
  status : Status
  message : String
  deriving DecidableEq, Repr

/-- A text for readers that stop at the first zero character: each of them is replaced. -/
def withoutZeros (text : String) : String :=
  text.map fun c ↦ if c = '\x00' then '\uFFFD' else c

/-- The message for readers that stop at the first zero character. -/
def ErrorRecord.visibleMessage (record : ErrorRecord) : String :=
  withoutZeros record.message

/-- The most recent failure, if it was not cleared, and who is told of failures. -/
structure ErrorState (ν : Type) where
  record : Option ErrorRecord := none
  listener : Option (Listener ν) := none

namespace ErrorState

variable {ν : Type}

/-- Record a failure. -/
def raise (errors : ErrorState ν) (status : Status) (message : String) : ErrorState ν :=
  { errors with record := some ⟨status, message⟩ }

/-- The events of a failure: the log entry, then what the listener makes of it. -/
def announcements (errors : ErrorState ν) (status : Status) (message : String) :
    List (Event ν) :=
  .logged (.failed status message) ::
    match errors.listener with
    | some listener => [.heard (listener message)]
    | none => []

/-- Forget the failure. -/
def clear (errors : ErrorState ν) : ErrorState ν :=
  { errors with record := none }

/-- Install or remove the listener. -/
def setListener (errors : ErrorState ν) (listener : Option (Listener ν)) : ErrorState ν :=
  { errors with listener }

end ErrorState

end Bytecode
