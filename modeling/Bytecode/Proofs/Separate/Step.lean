import Bytecode.Proofs.Separate.Basic

/-!
# Separate frames: steps

A configuration is what executes, with its own values, and a chain of what waits for it. A chain
alternates as calls do: bytecode is called by host code only, and waits for host code only. The
types see to that, so there is no ill-formed chain.

At the far end of the chain stands whoever is outside. It is a host program's caller or a bytecode
function's caller, and the index `b` of the types below says which. A machine that was started on a
host program ends with a status and a window; one that was started on a bytecode function ends with
the result of the function or with a trap.
-/

namespace Bytecode.Separate

variable {ν : Type}

/-! ## Configurations -/

/-- A call of a bytecode function by host code. -/
structure Run where
  chunk : Chunk
  /-- The frame that is executing. -/
  frame : Frame
  /-- The frames that wait for it, the innermost first. -/
  outer : List Frame

namespace Run

/-- The values of a run as they would stand on a stack. -/
def values (run : Run) : List Value :=
  stacked run.outer ++ run.frame.values

/-- The number of live frames. -/
def depth (run : Run) : Nat :=
  run.outer.length + 1

end Run

/-- Host code that has made a call. -/
structure Suspended (ν : Type) where
  /-- Its window, without the arguments of the call. -/
  window : List Value
  /-- How it goes on. -/
  resume : Reply → HostProgram ν

/-- What is being waited for. -/
inductive Awaited where
  | host
  | code

/-- What waits for host code or for bytecode, the nearest first; `b` is what is waited for at the
far end. -/
inductive Waiting (ν : Type) (b : Awaited) : Awaited → Type where
  /-- Whoever is outside. -/
  | outside : Waiting ν b b
  /-- Host code that has called the host function `name`. -/
  | program (name : String) (caller : Suspended ν) (rest : Waiting ν b .host) : Waiting ν b .host
  /-- Bytecode that has called the host function `name`. -/
  | bytecode (name : String) (run : Run) (rest : Waiting ν b .code) : Waiting ν b .host
  /-- Host code that has called a bytecode function. -/
  | entry (caller : Suspended ν) (rest : Waiting ν b .host) : Waiting ν b .code

/-- What is executing, and what waits for it. -/
inductive Control (ν : Type) (b : Awaited) where
  | host (window : List Value) (program : HostProgram ν) (waiting : Waiting ν b .host)
  | code (run : Run) (waiting : Waiting ν b .code)

structure Config (ν : Type) (b : Awaited) where
  shared : Shared ν
  control : Control ν b

/-- How a bytecode function ends: with its result or with a trap. -/
abbrev Outcome := Except Trap Value

/-- How a machine ends that was started from outside. -/
inductive Result : Awaited → Type where
  | host (status : Status) (window : List Value) : Result .host
  | code (outcome : Outcome) : Result .code

inductive Progress (ν : Type) (b : Awaited) where
  | more (config : Config ν b)
  | ended (shared : Shared ν) (result : Result b)

/-! ## Heights and depths -/

/-- What is outside as far as the resource limits are concerned. -/
structure Ground where
  /-- The values below all others. -/
  values : List Value
  /-- The number of live calls. -/
  depth : Nat

namespace Waiting

variable {a b : Awaited}

/-- All values that waiting code owns, as they would stand on a stack. -/
def values (ground : List Value) : {a : Awaited} → Waiting ν b a → List Value
  | _, .outside => ground
  | _, .program _ caller rest => rest.values ground ++ caller.window
  | _, .bytecode _ run rest => rest.values ground ++ run.values
  | _, .entry caller rest => rest.values ground ++ caller.window

/-- The number of live calls: while host code executes, if that is waited for, and before bytecode
was called, if that is. -/
def depth (ground : Nat) : {a : Awaited} → Waiting ν b a → Nat
  | _, .outside => ground
  | _, .program _ _ rest => rest.depth ground + 1
  | _, .bytecode _ run rest => rest.depth ground + run.depth + 1
  | _, .entry _ rest => rest.depth ground

end Waiting

/-! ## Instructions -/

/-- What one instruction of a run leads to. -/
inductive Turn (ν : Type) where
  /-- The run goes on. -/
  | goes (run : Run) (globals : Globals)
  /-- The run waits for a host function. -/
  | calls (name : String) (function : HostFunction ν) (arguments : List Value) (run : Run)
  /-- The run is over. -/
  | ends (outcome : Outcome)

namespace Run

/-- A trap in the executing instruction. -/
def trap (run : Run) (kind : TrapKind) : Turn ν :=
  .ends (.error ⟨kind, run.chunk.functionName run.frame.function, run.frame.pc⟩)

/-- Go on in the executing frame at `pc`. -/
def goto (run : Run) (pc : Nat) : Run :=
  { run with frame := { run.frame with pc } }

/-- The run without the top `count` operands. -/
def dropOperands (run : Run) (count : Nat) : Run :=
  { run with frame := { run.frame with operands := run.frame.operands.drop count } }

/-- The top `count` operands, in the order in which they were pushed. -/
def topOperands (run : Run) (count : Nat) : List Value :=
  (run.frame.operands.take count).reverse

/-- Call a function of the chunk: the top operands move into the locals of a new frame. -/
def callTurn (s : Shared ν) (below depth callee : Nat) (run : Run) : Turn ν :=
  let arity := run.chunk.functionArity callee
  if run.frame.operands.length < arity then run.trap .stackUnderflow
  else
    let caller := (run.dropOperands arity).goto (run.frame.pc + 1)
    let under := below + caller.values.length
    match Frame.enter s.limits run.chunk callee under (depth + run.depth)
        (run.topOperands arity) with
    | .error kind => run.trap kind
    | .ok frame => .goes { run with frame, outer := caller.frame :: run.outer } s.globals

/-- Call a host function: the top operands become its window. -/
def hostTurn (s : Shared ν) (depth : Nat) (i : Instruction) (run : Run) : Turn ν :=
  match run.chunk.stringConstant? i.arg1 with
  | none => run.trap (.invalidOperand i.arg1)
  | some bytes =>
    let name := Text.Utf8.decodeLossy bytes
    match (Text.Utf8.decode? bytes).bind s.hosts.get? with
    | none => run.trap (.unknownHostFunction name)
    | some function =>
      let arguments := i.arg2.toNat
      if function.arity ≠ arguments then
        run.trap (.hostArityMismatch name function.arity arguments)
      else if run.frame.operands.length < arguments then run.trap .stackUnderflow
      else if s.limits.callDepth ≤ depth + run.depth then
        run.trap (.callDepthExceeded s.limits.callDepth)
      else .calls name function (run.topOperands arguments) (run.dropOperands arguments)

/-- Return from the executing frame: the frame is dropped and its top operand goes to the caller. -/
def returnTurn (s : Shared ν) (run : Run) : Turn ν :=
  match run.frame.operands with
  | [] => run.trap .stackUnderflow
  | value :: _ =>
    match run.outer with
    | [] => .ends (.ok value)
    | frame :: outer =>
      .goes { run with frame := { frame with operands := value :: frame.operands }, outer }
        s.globals

/-- One instruction of a run above `below` values, called when `depth` calls were live. -/
def turn (s : Shared ν) (below depth : Nat) (run : Run) : Turn ν :=
  match run.chunk.instruction? run.frame.function run.frame.pc with
  | none => run.trap (.invalidOperand (UInt16.ofNat run.frame.pc))
  | some i =>
    let under := below + (stacked run.outer).length + run.frame.locals.length
    match run.frame.exec run.chunk s.limits.stackDepth under s.globals i with
    | .error kind => run.trap kind
    | .ok (flow, frame, globals) =>
      match flow with
      | .next => .goes ({ run with frame }.goto (run.frame.pc + 1)) globals
      | .jump target => .goes ({ run with frame }.goto target) globals
      | .call callee => run.callTurn s below depth callee
      | .host => run.hostTurn s depth i
      | .ret => run.returnTurn s

/-- The host function `name` that the run waits for is done: it must have succeeded and left one
value, which becomes the top operand. -/
def accept (s : Shared ν) (name : String) (status : Status) (results : List Value) (run : Run) :
    Turn ν :=
  if !status.isOk then run.trap (.hostFailed name status)
  else
    match results with
    | [value] =>
      let frame := { run.frame with operands := value :: run.frame.operands }
      .goes ({ run with frame }.goto (run.frame.pc + 1)) s.globals
    | _ => run.trap (.hostResultCount name results.length)

end Run

/-! ## Steps -/

namespace Progress

variable {b : Awaited}

/-- A bytecode function ends: its result joins the window of the host code that called it. -/
def finish (s : Shared ν) (outcome : Outcome) :
    {b : Awaited} → Waiting ν b .code → Progress ν b
  | _, .outside => .ended s (.code outcome)
  | _, .entry caller rest =>
    match outcome with
    | .ok value => .more ⟨s, .host (caller.window ++ [value]) (caller.resume (.ok ())) rest⟩
    | .error trap =>
      let failure := .trapped trap
      .more ⟨s.fail failure, .host caller.window (caller.resume (.error failure)) rest⟩

/-- Carry out what an instruction leads to. -/
def ofTurn (s : Shared ν) (waiting : Waiting ν b .code) : Turn ν → Progress ν b
  | .goes run globals => .more ⟨{ s with globals }, .code run waiting⟩
  | .calls name function arguments run =>
    .more ⟨s, .host arguments function.body (.bytecode name run waiting)⟩
  | .ends outcome => .finish s outcome waiting

end Progress

namespace Config

variable {b : Awaited}

/-- The body of a host function is done: what is left of its window goes to the caller. -/
def done (s : Shared ν) (status : Status) (window : List Value) :
    {b : Awaited} → Waiting ν b .host → Progress ν b
  | _, .outside => .ended s (.host status window)
  | _, .program name caller rest =>
    if status.isOk then
      .more ⟨s, .host (caller.window ++ window) (caller.resume (.ok ())) rest⟩
    else
      let failure := .hostFailed name status
      .more ⟨s.fail failure, .host (caller.window ++ window) (caller.resume (.error failure)) rest⟩
  | _, .bytecode name run rest => .ofTurn s rest (run.accept s name status window)

/-- Enter a bytecode function. -/
def enter (ground : Ground) (s : Shared ν) (chunk : Chunk) (index : Nat) (arguments : List Value)
    (waiting : Waiting ν b .code) : Progress ν b :=
  match Frame.enter s.limits chunk index (waiting.values ground.values).length
      (waiting.depth ground.depth) arguments with
  | .ok frame => .more ⟨s, .code ⟨chunk, frame, []⟩ waiting⟩
  | .error kind => .finish s (.error ⟨kind, chunk.functionName index, 0⟩) waiting

/-- Call a function from host code: the top values of the window are moved out of it. -/
def call (ground : Ground) (s : Shared ν) (window : List Value) (waiting : Waiting ν b .host)
    (name : String) (arguments : Nat) (next : Reply → HostProgram ν) : Progress ν b :=
  let caller : Suspended ν := ⟨window.take (window.length - arguments), next⟩
  let passed := window.drop (window.length - arguments)
  match (s.seen window).machine.dispatch name arguments with
  | .error failure => .more ⟨s.fail failure, .host window (next (.error failure)) waiting⟩
  | .ok (.host function) =>
    let s := s.log (.hostCalled name arguments)
    if s.limits.callDepth ≤ waiting.depth ground.depth then
      let failure := .callDepthExceeded s.limits.callDepth
      .more ⟨s.fail failure, .host window (next (.error failure)) waiting⟩
    else .more ⟨s, .host passed function.body (.program name caller waiting)⟩
  | .ok (.code chunk index) =>
    enter ground (s.log (.codeCalled name arguments)) chunk index passed (.entry caller waiting)

/-- Carry out an operation that neither calls nor returns, as if there were the window alone. -/
def operate (s : Shared ν) (window : List Value) (waiting : Waiting ν b .host)
    (operation : World ν → Reply × World ν) (next : Reply → HostProgram ν) : Config ν b :=
  let (reply, w) := operation (s.seen window)
  ⟨.ofWorld w, .host w.machine.stack.values.toList (next reply) waiting⟩

/-- One operation of host code. -/
def hostStep (ground : Ground) (s : Shared ν) (window : List Value) (waiting : Waiting ν b .host) :
    HostProgram ν → Progress ν b
  | .done status => done s status window waiting
  | .ask query next => .more ⟨s, .host window (next (query.answer (s.seen window))) waiting⟩
  | .act command next => .more (operate s window waiting (fun w ↦ command.perform w) next)
  | .register name arity body next =>
    .more (operate s window waiting (fun w ↦ w.register name ⟨arity, body⟩) next)
  | .call name arguments next => call ground s window waiting name arguments next
  | .note note next =>
    .more ⟨{ s with journal := s.journal.push (.noted note) }, .host window next waiting⟩

/-- One step. -/
def step (ground : Ground) : Config ν b → Progress ν b
  | ⟨s, .host window program waiting⟩ => hostStep ground s window waiting program
  | ⟨s, .code run waiting⟩ =>
    .ofTurn s waiting
      (run.turn s (waiting.values ground.values).length (waiting.depth ground.depth))

end Config

/-- `n` steps more, or fewer if the end comes before. -/
def Progress.after {b : Awaited} (ground : Ground) : Nat → Progress ν b → Progress ν b
  | n + 1, .more config => (config.step ground).after ground n
  | _, progress => progress

end Bytecode.Separate
