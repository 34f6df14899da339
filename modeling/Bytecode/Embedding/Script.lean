import Bytecode.Embedding.Host

/-!
# Scripted host functions

The body of a host function given as a list of steps. Steps are performed in order; the status of
the last step that can fail is remembered and may become the status of the function.
-/

namespace Bytecode

/-- A step of a script. -/
inductive ScriptStep (ν : Type) where
  /-- End the script successfully if the integer at an index is zero. -/
  | stopIfZero (index : Int)
  /-- Perform host code; it yields its status if it can fail. -/
  | perform (action : Host ν (Option Status))

/-- A host function as a list of steps. -/
structure Script (ν : Type) where
  steps : List (ScriptStep ν)
  /-- The status with which the script ends, or `none` for the status of the last step that could
  fail. -/
  result : Option Status := none
  /-- Whether a step that fails ends the script with its status. -/
  stopOnError : Bool := false

namespace Script

variable {ν : Type}

/-- Perform the steps that are left; `last` is the status of the last step that could fail. -/
def perform (script : Script ν) (last : Status) : List (ScriptStep ν) → Host ν Status
  | [] => return script.result.getD last
  | .stopIfZero index :: steps => do
    if (← Host.toI64 index) = 0 then return .ok
    script.perform last steps
  | .perform action :: steps => do
    match ← action with
    | none => script.perform last steps
    | some status =>
      if !status.isOk && script.stopOnError then return status
      script.perform status steps

/-- Perform a script. -/
def run (script : Script ν) : Host ν Status :=
  script.perform .ok script.steps

end Script

end Bytecode
