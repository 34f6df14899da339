import Bytecode.Verify.Depth
import Bytecode.Verify.Structure

/-!
# Verification

A chunk may run once it passes three checks: its sizes, its structure and the operand depths of its
functions. All errors are reported. The depth pass follows jumps, so it waits for a chunk without
structural errors.
-/

namespace Bytecode

/-- All errors of a chunk. -/
def Chunk.verify (chunk : Chunk) : List VerifyError :=
  let structural := Verify.checkStructure chunk
  Verify.checkLimits chunk ++ structural
    ++ if structural.isEmpty then Verify.checkDepth chunk else []

/-- A chunk with nothing wrong. -/
def Chunk.Verified (chunk : Chunk) : Prop :=
  chunk.verify = []

instance (chunk : Chunk) : Decidable chunk.Verified :=
  inferInstanceAs (Decidable (chunk.verify = []))

end Bytecode
