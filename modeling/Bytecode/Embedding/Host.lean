import Bytecode.Machine.Step

/-!
# Writing host code

Host code that yields a result, to be composed with `do`. A piece of host code is told what to do
with its result and gives the whole program; composing two pieces hands the second to the first.
The operations below are the embedding interface of the machine.
-/

namespace Bytecode

/-- A piece of host code with a result of type `α`. -/
def Host (ν α : Type) : Type := (α → HostProgram ν) → HostProgram ν

namespace Host

variable {ν α β : Type}

instance : Monad (Host ν) where
  pure a := fun next ↦ next a
  bind x f := fun next ↦ x fun a ↦ f a next

/-- The program that ends with the status a piece of host code yields. -/
def program (x : Host ν Status) : HostProgram ν :=
  x .done

/-- Look at the machine. -/
def ask (query : Query) : Host ν query.Answer := fun next ↦ .ask query next

/-- Change the machine by an operation that can fail. -/
def act (command : Command ν) : Host ν Reply := fun next ↦ .act command next

/-- Change the machine by an operation that cannot fail. -/
def act_ (command : Command ν) : Host ν Unit := fun next ↦ .act command fun _ ↦ next ()

/-! ## The window -/

/-- The number of values in the window. -/
def height : Host ν Nat := ask .height

/-- The value at an index. -/
def value (index : Int) : Host ν (Option Value) := ask (.value index)

/-- Whether the value at an index has a type. -/
def hasTag (index : Int) (tag : TypeTag) : Host ν Bool := do
  return (← value index).any fun v ↦ v.tag == tag

/-- The integer at an index, zero if there is none. -/
def toI64 (index : Int) : Host ν Int64 := do
  return ((← value index).bind Value.asI64?).getD 0

/-- The bits of the float at an index, those of zero if there is none. -/
def toF64 (index : Int) : Host ν UInt64 := do
  return ((← value index).bind Value.asF64?).getD 0

/-- The boolean at an index, false if there is none. -/
def toBool (index : Int) : Host ν Bool := do
  return ((← value index).bind Value.asBool?).getD false

/-- The bytes of the string at an index, if there is one. -/
def toBytes? (index : Int) : Host ν (Option Bytes) := do
  return (← value index).bind Value.asBytes?

def push (value : Value) : Host ν Unit := act_ (.push value)

/-- Remove values from the top, as many as the window has at most. -/
def pop (count : Nat) : Host ν Unit := act_ (.pop count)

/-- Cut the window down, or pad it with null. -/
def setTop (height : Nat) : Host ν Unit := act_ (.setTop height)

/-! ## Globals, functions and chunks -/

/-- Take the top value off and bind it to a name. -/
def setGlobal (name : String) : Host ν Reply := act (.setGlobal name)

/-- Push the value bound to a name. -/
def getGlobal (name : String) : Host ν Reply := act (.getGlobal name)

/-- Register a host function, in place of an earlier one of the same name. -/
def register (name : String) (arity : Nat) (body : HostProgram ν) : Host ν Reply := fun next ↦
  .register name arity body next

/-- Whether a name is that of a host function or of a function of the loaded chunk. -/
def hasFunction (name : String) : Host ν Bool := ask (.hasFunction name)

/-- Call a function with the top values of the window as arguments. -/
def call (name : String) (arguments : Nat) : Host ν Reply := fun next ↦ .call name arguments next

/-- The loaded chunk. -/
def chunk : Host ν (Option Chunk) := ask .chunk

/-- Load a chunk from its binary form. -/
def load (bytes : Bytes) : Host ν Reply := act (.load bytes)

/-- Load a chunk from a file. -/
def loadFile (path : Bytes) : Host ν Reply := act (.loadFile path)

/-- Write the loaded chunk to a file. -/
def saveFile (path : Bytes) : Host ν Reply := act (.saveFile path)

/-! ## Failures and limits -/

/-- The most recent failure. -/
def errorRecord : Host ν (Option ErrorRecord) := ask .errorRecord

def clearError : Host ν Unit := act_ .clearError

/-- Record a failure of the host's own. -/
def raise (status : Status) (message : String) : Host ν Unit := act_ (.raise status message)

def setListener (listener : Option (Listener ν)) : Host ν Unit := act_ (.setListener listener)

def limits : Host ν Limits := ask .limits

def setLimits (limits : Limits) : Host ν Unit := act_ (.setLimits limits)

/-! ## Files and notes -/

/-- The contents of a file, if it can be read. -/
def file (path : Bytes) : Host ν (Option Bytes) := ask (.file path)

/-- Write a file. -/
def writeFile (path bytes : Bytes) : Host ν Unit := act_ (.writeFile path bytes)

/-- Leave a note in the journal. -/
def note (note : ν) : Host ν Unit := fun next ↦ .note note (next ())

/-! ## Common compositions -/

/-- Push a copy of the value at an index, or null if there is none. -/
def copy (index : Int) : Host ν Unit := do
  push ((← value index).getD .null)

/-- Replace the whole window by the sum of its integers. -/
def sum : Host ν Unit := do
  let count ← height
  let total ← (List.range count).foldlM (fun total (i : Nat) ↦ do return total + (← toI64 i)) 0
  setTop 0
  push (.i64 total)

/-- Add to the integer on top. -/
def addTop (k : Int64) : Host ν Unit := do
  let n ← toI64 (-1)
  pop 1
  push (.i64 (n + k))

/-- The values of the window from the bottom, or of a window of more than `most` only the first and
the last `few` of them. -/
def glance (most few : Nat) : Host ν (List Value) := do
  let count ← height
  let indices :=
    if count ≤ most then List.range count
    else List.range few ++ (List.range few).map fun i ↦ count - few + i
  indices.filterMapM fun (i : Nat) ↦ value i

end Host

end Bytecode
