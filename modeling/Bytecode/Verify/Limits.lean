import Bytecode.Chunk.Basic
import Bytecode.Verify.Error

/-!
# Size limits

Operands have 16 bits, so larger pools and functions could not be addressed; the function table is
bounded as well.
-/

namespace Bytecode.Verify

/-- The most constants a chunk may hold. -/
def maxConstants : Nat := 65536

/-- The most functions a chunk may hold. -/
def maxFunctions : Nat := 4096

/-- The most instructions a function may hold. -/
def maxFunctionSize : Nat := 65536

/-- The most operands a frame may hold. -/
def maxOperandDepth : Nat := 1024

/-- The sizes of a chunk that exceed a limit: the pool, the table, then function by function. -/
def checkLimits (chunk : Chunk) : List VerifyError :=
  let constants := chunk.constants.size
  let functions := chunk.functions.size
  (if maxConstants < constants then [.tooManyConstants constants] else [])
    ++ (if maxFunctions < functions then [.tooManyFunctions functions] else [])
    ++ chunk.functions.toList.zipIdx.flatMap fun (f, function) ↦
      if maxFunctionSize < f.code.size then [.functionTooLarge function f.code.size] else []

end Bytecode.Verify
