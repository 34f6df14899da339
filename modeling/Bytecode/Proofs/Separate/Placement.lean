import Bytecode.Proofs.Separate.Step
import Bytecode.Proofs.Stack

/-!
# Placing separate frames on one stack

A configuration of the machine with separate frames determines one of the machine with a single
stack: the values are put one after the other, outermost first, and every slot number and counter is
read off the sizes of what lies below. `Config.onto` is this map.

What is outside gives the rest: the values below, the base of the window that the outside code has,
how many calls are live, how the outside code goes on and what waits for it in turn. None of it is
ever looked at while the inner machine has not ended, so the map says at once that whatever is
outside does not matter.
-/

namespace Bytecode.Separate

variable {ν : Type} {a b : Awaited}

/-- What is outside. -/
structure Outside (ν : Type) extends Ground where
  /-- The base of the window of the code that has called a bytecode function. -/
  base : Nat
  base_le : base ≤ values.length
  /-- How the code that has called a bytecode function goes on. -/
  resume : Reply → HostProgram ν
  /-- The open calls of host functions. -/
  calls : List (HostCall ν)

/-! ## Frames and runs -/

/-- The frame with its first local at slot `base`. -/
def Frame.placed (f : Frame) (base : Nat) : Bytecode.Frame :=
  ⟨f.function, f.pc, base, base + f.locals.length⟩

/-- Several frames, the innermost first, above `below` values. -/
def placedFrames (below : Nat) : List Frame → List Bytecode.Frame
  | [] => []
  | f :: outer => f.placed (below + (stacked outer).length) :: placedFrames below outer

/-- The run above `below` values, called when `depth` calls were live. -/
def Run.placed (run : Run) (below depth : Nat) (resume : Reply → HostProgram ν) : CodeRun ν :=
  ⟨run.chunk, run.frame.placed (below + (stacked run.outer).length), placedFrames below run.outer,
    below, depth, resume⟩

/-! ## Chains -/

namespace Waiting

/-- How the host code goes on that waits for bytecode. -/
def resume (o : Outside ν) : {b : Awaited} → Waiting ν b .code → Reply → HostProgram ν
  | _, .outside => o.resume
  | _, .entry caller _ => caller.resume

/-- The base of the window of the host code that waits for bytecode. -/
def base (o : Outside ν) : {b : Awaited} → Waiting ν b .code → Nat
  | _, .outside => o.base
  | _, .entry _ rest => (rest.values o.values).length

/-- The open calls of host functions. -/
def calls (o : Outside ν) : {a : Awaited} → Waiting ν b a → List (HostCall ν)
  | _, .outside => o.calls
  | _, .program name caller rest =>
    ⟨name, (rest.values o.values).length, .program caller.resume⟩ :: rest.calls o
  | _, .bytecode name run rest =>
    let below := (rest.values o.values).length
    let placed := run.placed below (rest.depth o.depth) (rest.resume o)
    ⟨name, rest.base o, .code placed (below + run.values.length)⟩ :: rest.calls o
  | _, .entry _ rest => rest.calls o

theorem base_le (o : Outside ν) (waiting : Waiting ν b .code) :
    waiting.base o ≤ (waiting.values o.values).length := by
  cases waiting with
  | outside => exact o.base_le
  | entry caller rest => simp [base, values]

end Waiting

/-! ## Configurations -/

/-- The world while host code executes. -/
def Shared.hostWorld (s : Shared ν) (o : Outside ν) (window : List Value)
    (waiting : Waiting ν b .host) : World ν :=
  let below := waiting.values o.values
  s.world ⟨(below ++ window).toArray, below.length⟩ (waiting.depth o.depth)

/-- The world while bytecode executes. -/
def Shared.codeWorld (s : Shared ν) (o : Outside ν) (run : Run) (waiting : Waiting ν b .code) :
    World ν :=
  s.world ⟨(waiting.values o.values ++ run.values).toArray, waiting.base o⟩
    (waiting.depth o.depth + run.depth)

/-- The run at its place in the chain. -/
def Run.above (run : Run) (o : Outside ν) (waiting : Waiting ν b .code) : CodeRun ν :=
  run.placed (waiting.values o.values).length (waiting.depth o.depth) (waiting.resume o)

@[simp] theorem Run.chunk_above (run : Run) (o : Outside ν) (waiting : Waiting ν b .code) :
    (run.above o waiting).chunk = run.chunk := rfl

/-- The configuration on a single stack. -/
def Config.onto (o : Outside ν) : Config ν b → Bytecode.Config ν
  | ⟨s, .host window program waiting⟩ =>
    ⟨s.hostWorld o window waiting, .host program, waiting.calls o⟩
  | ⟨s, .code run waiting⟩ =>
    ⟨s.codeWorld o run waiting, .code (run.above o waiting), waiting.calls o⟩

/-! ## Endings -/

/-- What the code that has called a bytecode function is told. -/
def Outcome.reply : Outcome → Reply
  | .ok _ => .ok ()
  | .error trap => .error (.trapped trap)

/-- The world after a bytecode function that was called above `below`. -/
def Shared.afterCode (s : Shared ν) (below : List Value) (base depth : Nat) : Outcome → World ν
  | .ok value => s.world ⟨(below ++ [value]).toArray, base⟩ depth
  | .error trap => (s.fail (.trapped trap)).world ⟨below.toArray, base⟩ depth

/-- What host code that has called a host function is told. -/
def hostReply (name : String) (status : Status) : Reply :=
  if status.isOk then .ok () else .error (.hostFailed name status)

/-- The world after a host function that was called above `below` and left `window`. -/
def Shared.afterHost (s : Shared ν) (below window : List Value) (base depth : Nat) (name : String)
    (status : Status) : World ν :=
  (if status.isOk then s else s.fail (.hostFailed name status)).world
    ⟨(below ++ window).toArray, base⟩ depth

/-- Whatever is outside when a machine ends goes on. -/
def Result.onto (o : Outside ν) (s : Shared ν) : {b : Awaited} → Result b → Bytecode.Progress ν
  | _, .host status window =>
    Bytecode.Config.hostStep
      (s.world ⟨(o.values ++ window).toArray, o.values.length⟩ o.depth) o.calls (.done status)
  | _, .code outcome =>
    .more ⟨s.afterCode o.values o.base o.depth outcome, .host (o.resume outcome.reply), o.calls⟩

def Progress.onto (o : Outside ν) : Progress ν b → Bytecode.Progress ν
  | .more config => .more (config.onto o)
  | .ended s result => result.onto o s

end Bytecode.Separate
