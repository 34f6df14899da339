import Bytecode.Embedding.Host

/-!
# The foreign interface

The machine as code of another language sees it: through handles that may be null, strings that end
at their first zero byte or may be missing altogether, and counts that may be negative. What can
fail reports a status, and every failure is also recorded in the machine, so that the status and the
error state always agree. Nothing happens through a null handle: reads give nothing and what can
fail reports an invalid argument.
-/

namespace Bytecode.Foreign

/-! ## Handles -/

/-- A piece of foreign code with a result of type `α`: what it does with a machine, and what it does
with a null handle, where it still reaches the files. -/
structure Entry (ν α : Type) where
  live : Host ν α
  null : StateM Files α

variable {ν : Type}

instance : Monad (Entry ν) where
  pure a := ⟨pure a, pure a⟩
  bind x f := ⟨x.live >>= fun a ↦ (f a).live, x.null >>= fun a ↦ (f a).null⟩

/-- Host code that gives `otherwise` for a null handle. -/
def entry {α : Type} (live : Host ν α) (otherwise : α) : Entry ν α :=
  ⟨live, pure otherwise⟩

/-- A string that ends at its first zero byte. -/
def cut (bytes : Bytes) : Bytes :=
  bytes.takeWhile (· != 0)

/-! ## The window -/

def push (value : Value) : Entry ν Unit := entry (Host.push value) ()

/-- Push the first `length` bytes at an address. Without a length the string is empty; a length
without an address gives null. -/
def pushString (data : Option Bytes) (length : Nat) : Entry ν Unit :=
  if length = 0 then push (.str [])
  else
    match data with
    | none => push .null
    | some bytes => push (.str (bytes.take length))

def hasTag (index : Int) (tag : TypeTag) : Entry ν Bool := entry (Host.hasTag index tag) false

def toBool (index : Int) : Entry ν Bool := entry (Host.toBool index) false

def toI64 (index : Int) : Entry ν Int64 := entry (Host.toI64 index) 0

def toF64 (index : Int) : Entry ν UInt64 := entry (Host.toF64 index) 0

def toBytes? (index : Int) : Entry ν (Option Bytes) := entry (Host.toBytes? index) none

/-- The number of values in the window, as far as 31 bits can tell. -/
def height : Entry ν Nat := entry (do return min (← Host.height) 2147483647) 0

/-- Cut the window down, or pad it with null. A negative height is taken for zero. -/
def setTop (height : Int) : Entry ν Unit := entry (Host.setTop height.toNat) ()

/-- Remove values from the top. A negative count is taken for zero. -/
def pop (count : Int) : Entry ν Unit := entry (Host.pop count.toNat) ()

/-! ## Requests that can fail -/

/-- What can be asked of a machine and fail. A name, a path, a buffer or a body is `none` where a
null pointer is given. -/
inductive Request (ν : Type) where
  | call (name : Option Bytes) (arguments : Int)
  | register (name : Option Bytes) (arity : Int) (body : Option (HostProgram ν))
  | setGlobal (name : Option Bytes)
  | getGlobal (name : Option Bytes)
  | load (data : Option Bytes)
  | loadFile (path : Option Bytes)
  | saveFile (path : Option Bytes)

/-- The text of a name. -/
def nameArgument (what : String) : Option Bytes → Except String String
  | none => .error s!"{what} is null"
  | some bytes =>
    match Text.Utf8.decode? (cut bytes) with
    | some name => .ok name
    | none => .error s!"{what} is not valid UTF-8"

/-- A count that is not negative. -/
def countArgument (what : String) (n : Int) : Except String Nat :=
  if n < 0 then .error s!"negative {what}: {n}" else .ok n.toNat

/-- The bytes of a path, which need not be text. -/
def pathArgument : Option Bytes → Except String Bytes
  | none => .error "path is null"
  | some bytes => .ok (cut bytes)

namespace Request

/-- The operation a request stands for, or what is wrong with its arguments. They are examined from
the left, a missing body last. -/
def operation : Request ν → Except String (Host ν Reply)
  | .call name arguments => do
    let name ← nameArgument "function name" name
    let arguments ← countArgument "argument count" arguments
    return Host.call name arguments
  | .register name arity body => do
    let name ← nameArgument "function name" name
    let arity ← countArgument "arity" arity
    match body with
    | none => throw s!"function pointer for '{name}' is null"
    | some body => return Host.register name arity body
  | .setGlobal name => do
    let name ← nameArgument "global name" name
    return Host.setGlobal name
  | .getGlobal name => do
    let name ← nameArgument "global name" name
    return Host.getGlobal name
  | .load none => throw "chunk buffer is null"
  | .load (some bytes) => return Host.load bytes
  | .loadFile path => do
    let path ← pathArgument path
    return Host.loadFile path
  | .saveFile path => do
    let path ← pathArgument path
    return Host.saveFile path

/-- Make a request of a machine. Wrong arguments are recorded as a failure. -/
def live (request : Request ν) : Host ν Status :=
  match request.operation with
  | .error message => do
    Host.raise .invalidArgument message
    return .invalidArgument
  | .ok operation => do
    let reply ← operation
    return Reply.status reply

/-- Make a request through a handle. -/
def enter (request : Request ν) : Entry ν Status := entry request.live .invalidArgument

end Request

/-! ## Failures and limits -/

def hasError : Entry ν Bool := entry (do return (← Host.errorRecord).isSome) false

/-- The message of the most recent failure. -/
def error? : Entry ν (Option String) :=
  entry (do return (← Host.errorRecord).map ErrorRecord.visibleMessage) none

def clearError : Entry ν Unit := entry Host.clearError ()

/-- Install a listener, or remove it. It is told messages without zero characters. -/
def setListener (listener : Option (Listener ν)) : Entry ν Unit :=
  entry (Host.setListener (listener.map fun hear message ↦ hear (withoutZeros message))) ()

/-- Bound nested calls; zero stands for the limit of a fresh machine. -/
def setCallDepthLimit (depth : Nat) : Entry ν Unit :=
  entry
    (do
      let limits ← Host.limits
      let callDepth := if depth = 0 then Limits.standard.callDepth else depth
      Host.setLimits { limits with callDepth })
    ()

def hasChunk : Entry ν Bool := entry (do return (← Host.chunk).isSome) false

/-! ## Files -/

/-- The contents of a file, if it can be read. -/
def file (path : Bytes) : Entry ν (Option Bytes) :=
  ⟨Host.file path, do return ((← get).load path).toOption⟩

/-- Write a file. -/
def writeFile (path bytes : Bytes) : Entry ν Unit :=
  ⟨Host.writeFile path bytes, modify fun files ↦ (files.store path bytes).2⟩

/-! ## Version -/

/-- The version of the interface. -/
structure Version where
  major : Nat
  minor : Nat
  patch : Nat

def Version.text (v : Version) : String := s!"{v.major}.{v.minor}.{v.patch}"

/-- The version of this interface. -/
def version : Version := ⟨0, 1, 0⟩

end Bytecode.Foreign
