/-!
# Resource limits

What running bytecode may use. Values that host code pushes are not limited.
-/

namespace Bytecode

/-- Bounds on what running bytecode may use. -/
structure Limits where
  /-- The most nested bytecode frames and host calls. -/
  callDepth : Nat := 256
  /-- The most stack slots up to which the interpreter pushes. -/
  stackDepth : Nat := 1048576
  deriving DecidableEq, Repr

/-- The limits of a fresh machine. -/
def Limits.standard : Limits := {}

end Bytecode
