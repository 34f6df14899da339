import Bytecode.Chunk.Basic
import Bytecode.Machine.ErrorState
import Bytecode.Machine.Failure
import Bytecode.Machine.Limits

/-!
# Host programs

Host code is everything outside the bytecode: the embedding program and the functions it registers.
A host program is a tree. Each node is one operation on the machine, with the program that goes on
for every answer the operation may give; a leaf is the status with which the program ends. Host code
sees the machine through these operations only, so what a program can see and do is read off its
nodes.
-/

namespace Bytecode

/-- What host code can ask without changing anything. -/
inductive Query where
  /-- The number of values in the window. -/
  | height
  /-- The value at a window index. -/
  | value (index : Int)
  /-- Whether a name is that of a host function or of a function of the loaded chunk. -/
  | hasFunction (name : String)
  /-- The loaded chunk. -/
  | chunk
  /-- The most recent failure. -/
  | errorRecord
  | limits
  /-- The contents of a file. -/
  | file (path : Bytes)
  deriving DecidableEq, Repr

/-- The type of the answer to a query. -/
@[reducible] def Query.Answer : Query → Type
  | .height => Nat
  | .value _ => Option Value
  | .hasFunction _ => Bool
  | .chunk => Option Chunk
  | .errorRecord => Option ErrorRecord
  | .limits => Limits
  | .file _ => Option Bytes

/-- What host code can do to the machine, calls and registrations apart. -/
inductive Command (ν : Type) where
  | push (value : Value)
  | pop (count : Nat)
  /-- Cut the window down, or pad it with null. -/
  | setTop (height : Nat)
  /-- Take the top value off and bind it to a name. -/
  | setGlobal (name : String)
  /-- Push the value bound to a name. -/
  | getGlobal (name : String)
  /-- Load a chunk from its binary form. -/
  | load (bytes : Bytes)
  /-- Load a chunk from a file. -/
  | loadFile (path : Bytes)
  /-- Write the loaded chunk to a file. -/
  | saveFile (path : Bytes)
  | clearError
  /-- Record a failure of the host's own. -/
  | raise (status : Status) (message : String)
  | setListener (listener : Option (Listener ν))
  | setLimits (limits : Limits)
  /-- Write a file. A file that cannot be written is left alone. -/
  | writeFile (path bytes : Bytes)

/-- A program of host code. -/
inductive HostProgram (ν : Type) : Type where
  /-- End with a status. -/
  | done (status : Status)
  /-- Look at the machine. -/
  | ask (query : Query) (next : query.Answer → HostProgram ν)
  /-- Change the machine. -/
  | act (command : Command ν) (next : Reply → HostProgram ν)
  /-- Register a host function. -/
  | register (name : String) (arity : Nat) (body : HostProgram ν) (next : Reply → HostProgram ν)
  /-- Call a function with the top values of the window as arguments. -/
  | call (name : String) (arguments : Nat) (next : Reply → HostProgram ν)
  /-- Leave a note in the journal. -/
  | note (note : ν) (next : HostProgram ν)

/-- A function that host code provides. -/
structure HostFunction (ν : Type) where
  /-- The number of arguments callers must pass. -/
  arity : Nat
  body : HostProgram ν

end Bytecode
