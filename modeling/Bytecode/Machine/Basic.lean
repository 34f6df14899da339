import Bytecode.Chunk.Decode
import Bytecode.Machine.Globals
import Bytecode.Machine.Program
import Bytecode.Machine.Stack
import Bytecode.Verify.Basic

/-!
# The machine

The state of a virtual machine, the world around it, and the operations of host code that neither
call nor return. An operation that fails changes nothing of the machine but its error state.
-/

namespace Bytecode

/-- The functions that host code has registered, by name. A later registration replaces an earlier
one of the same name. -/
structure HostRegistry (ν : Type) where
  functions : Std.HashMap String (HostFunction ν) := ∅

namespace HostRegistry

variable {ν : Type}

def register (hosts : HostRegistry ν) (name : String) (function : HostFunction ν) :
    HostRegistry ν :=
  ⟨hosts.functions.insert name function⟩

def get? (hosts : HostRegistry ν) (name : String) : Option (HostFunction ν) :=
  hosts.functions[name]?

def contains (hosts : HostRegistry ν) (name : String) : Bool :=
  hosts.functions.contains name

/-- The number of registered names. -/
def size (hosts : HostRegistry ν) : Nat :=
  hosts.functions.size

def isEmpty (hosts : HostRegistry ν) : Bool :=
  hosts.functions.isEmpty

end HostRegistry

/-- The values of a machine: all that an instruction of a single frame can change. -/
structure Store where
  stack : Stack := {}
  globals : Globals := {}

/-- A virtual machine. -/
structure Machine (ν : Type) extends Store where
  /-- The loaded chunk. -/
  chunk : Option Chunk := none
  hosts : HostRegistry ν := {}
  errors : ErrorState ν := {}
  limits : Limits := {}
  /-- The number of live bytecode frames and open host windows. -/
  depth : Nat := 0

/-- A machine, the files it can reach, and what has happened so far. -/
structure World (ν : Type) where
  machine : Machine ν
  files : Files
  journal : Array (Event ν)

variable {ν : Type}

/-- Whether a name is that of a host function or of a function of the loaded chunk. -/
def Machine.hasFunction (m : Machine ν) (name : String) : Bool :=
  m.hosts.contains name ||
    match m.chunk with
    | some chunk => (chunk.functionIndex? name).isSome
    | none => false

/-- The chunk that `bytes` encode, if it may be loaded. -/
def Machine.admit (bytes : Bytes) : Except Failure Chunk :=
  if bytes.isEmpty then .error .emptyChunk
  else
    match Chunk.decode bytes with
    | .error cause => .error (.malformed cause)
    | .ok chunk =>
      match chunk.verify with
      | [] => .ok chunk
      | errors => .error (.unverified errors)

/-- The answer to a query. -/
def Query.answer (w : World ν) : (query : Query) → query.Answer
  | .height => w.machine.stack.height
  | .value index => w.machine.stack.get? index
  | .hasFunction name => w.machine.hasFunction name
  | .chunk => w.machine.chunk
  | .errorRecord => w.machine.errors.record
  | .limits => w.machine.limits
  | .file path => (w.files.load path).toOption

namespace World

/-! ## The journal and the error state -/

def log (w : World ν) (entry : LogEntry) : World ν :=
  { w with journal := w.journal.push (.logged entry) }

/-- Record a failure and announce it. -/
def raise (w : World ν) (status : Status) (message : String) : World ν :=
  { w with
    machine := { w.machine with errors := w.machine.errors.raise status message }
    journal := w.journal ++ w.machine.errors.announcements status message }

/-- End an operation with a failure. -/
def fail (w : World ν) (failure : Failure) : Reply × World ν :=
  (.error failure, w.raise failure.status failure.message)

/-! ## Operations -/

/-- Change the window. -/
def updateStack (w : World ν) (f : Stack → Stack) : World ν :=
  { w with machine := { w.machine with stack := f w.machine.stack } }

/-- Take the top value off and bind it to a name. -/
def setGlobal (w : World ν) (name : String) : Reply × World ν :=
  if name = "" then w.fail (.emptyName .global)
  else
    match w.machine.stack.takeTop with
    | (none, _) => w.fail .emptyStack
    | (some value, stack) =>
      let globals := w.machine.globals.set (Text.Utf8.encode name) value
      (.ok (), { w with machine := { w.machine with stack, globals } })

/-- Push the value bound to a name. -/
def getGlobal (w : World ν) (name : String) : Reply × World ν :=
  if name = "" then w.fail (.emptyName .global)
  else
    match w.machine.globals.get? (Text.Utf8.encode name) with
    | none => w.fail (.globalNotFound name)
    | some value => (.ok (), w.updateStack (·.push value))

/-- Make a chunk the loaded one. -/
def install (w : World ν) (chunk : Chunk) : World ν :=
  let entry := .loaded chunk.constants.size chunk.functions.size w.machine.chunk.isSome
  World.log { w with machine := { w.machine with chunk := some chunk } } entry

/-- Load a chunk from its binary form. -/
def load (w : World ν) (bytes : Bytes) : Reply × World ν :=
  match Machine.admit bytes with
  | .error failure => w.fail failure
  | .ok chunk => (.ok (), w.install chunk)

/-- Load a chunk from a file. -/
def loadFile (w : World ν) (path : Bytes) : Reply × World ν :=
  match w.files.load path with
  | .error cause => w.fail (.cannotRead path cause)
  | .ok bytes => w.load bytes

/-- Write the loaded chunk to a file. -/
def saveFile (w : World ν) (path : Bytes) : Reply × World ν :=
  match w.machine.chunk with
  | none => w.fail .noChunk
  | some chunk =>
    match w.files.store path chunk.encode with
    | (.error cause, files) => World.fail { w with files } (.cannotWrite path cause)
    | (.ok (), files) => (.ok (), { w with files })

/-- Register a host function. -/
def register (w : World ν) (name : String) (function : HostFunction ν) : Reply × World ν :=
  if name = "" then w.fail (.emptyName .function)
  else
    let entry := .registered name function.arity (w.machine.hosts.contains name)
    let hosts := w.machine.hosts.register name function
    (.ok (), World.log { w with machine := { w.machine with hosts } } entry)

end World

/-- Carry out a command. -/
def Command.perform (w : World ν) : Command ν → Reply × World ν
  | .push value => (.ok (), w.updateStack (·.push value))
  | .pop count => (.ok (), w.updateStack (·.pop count))
  | .setTop height => (.ok (), w.updateStack (·.setTop height))
  | .setGlobal name => w.setGlobal name
  | .getGlobal name => w.getGlobal name
  | .load bytes => w.load bytes
  | .loadFile path => w.loadFile path
  | .saveFile path => w.saveFile path
  | .clearError =>
    (.ok (), { w with machine := { w.machine with errors := w.machine.errors.clear } })
  | .raise status message => (.ok (), w.raise status message)
  | .setListener listener =>
    let errors := w.machine.errors.setListener listener
    (.ok (), { w with machine := { w.machine with errors } })
  | .setLimits limits => (.ok (), { w with machine := { w.machine with limits } })
  | .writeFile path bytes => (.ok (), { w with files := (w.files.store path bytes).2 })

end Bytecode
