/-!
# Status codes

The outcome of an operation as embedding code sees it. The numbers are part of the embedding
interface.
-/

namespace Bytecode

/-- The outcome of an operation. -/
inductive Status where
  | ok
  | runtimeError
  | typeError
  | verifyError
  | memoryError
  | invalidArgument
  | notFound
  deriving DecidableEq, Repr

namespace Status

/-- All codes, in the order of their numbers. -/
def all : List Status :=
  [.ok, .runtimeError, .typeError, .verifyError, .memoryError, .invalidArgument, .notFound]

/-- The number of a code. -/
def code : Status → Nat
  | .ok => 0
  | .runtimeError => 1
  | .typeError => 2
  | .verifyError => 3
  | .memoryError => 4
  | .invalidArgument => 5
  | .notFound => 6

/-- The code with this number. -/
def ofCode? (code : Nat) : Option Status :=
  all[code]?

theorem ofCode?_code (status : Status) : ofCode? status.code = some status := by
  cases status <;> rfl

def isOk (status : Status) : Bool :=
  status == .ok

/-- The name of a code in messages. -/
def name : Status → String
  | .ok => "ok"
  | .runtimeError => "runtime error"
  | .typeError => "type error"
  | .verifyError => "verification error"
  | .memoryError => "memory error"
  | .invalidArgument => "invalid argument"
  | .notFound => "not found"

end Status

end Bytecode
