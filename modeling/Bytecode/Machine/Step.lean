import Bytecode.Machine.Exec

/-!
# Steps of the machine

Host code and bytecode call each other to any depth. A configuration writes this nesting out: what
is executing now, and for each open host window the code that waits for it. One step is one
operation of host code or one instruction of bytecode.

* A call from host code looks the name up among the host functions, then in the loaded chunk.
* Calling a bytecode function starts a *run*, which has its own frames and keeps its chunk even if
  host code loads another one meanwhile. A run ends when its first frame returns, or in a trap.
* Calling a host function opens a window on its arguments. The window closes when the body is done.
-/

namespace Bytecode

/-! ## Configurations -/

/-- A call of a bytecode function by host code, while bytecode executes. -/
structure CodeRun (ν : Type) where
  chunk : Chunk
  /-- The frame that is executing. -/
  frame : Frame
  /-- The frames that wait for it, the innermost first. -/
  outer : List Frame
  /-- The slot of the first argument of the call. -/
  argumentsBase : Nat
  /-- The depth of the machine before the call. -/
  depthBefore : Nat
  /-- How the host code that called goes on. -/
  resume : Reply → HostProgram ν

/-- Who waits for a host function. -/
inductive Caller (ν : Type) where
  /-- Host code. -/
  | program (resume : Reply → HostProgram ν)
  /-- Bytecode, which expects a single value in place of those from slot `window` upwards. -/
  | code (run : CodeRun ν) (window : Nat)

/-- A call of a host function, while its body executes. -/
structure HostCall (ν : Type) where
  name : String
  /-- The base of the stack before the window was opened. -/
  outerBase : Nat
  caller : Caller ν

/-- What is executing. -/
inductive Control (ν : Type) where
  | host (program : HostProgram ν)
  | code (run : CodeRun ν)

/-- All there is to know in order to go on. -/
structure Config (ν : Type) where
  world : World ν
  control : Control ν
  /-- The open calls of host functions, the innermost first. -/
  calls : List (HostCall ν)

/-- The outcome of a step. -/
inductive Progress (ν : Type) where
  | more (config : Config ν)
  /-- The outermost host program is done. -/
  | halted (status : Status) (world : World ν)

variable {ν : Type}

/-- Execute a host program from the outside. -/
def Config.start (world : World ν) (program : HostProgram ν) : Config ν :=
  ⟨world, .host program, []⟩

/-! ## Frames -/

/-- Start a frame of a function whose arguments begin at slot `base`; the locals after them start
as null. -/
def Machine.enterFrame (m : Machine ν) (chunk : Chunk) (function base : Nat) :
    Except TrapKind Frame × Machine ν :=
  match chunk.functions[function]? with
  | none => (.error (.invalidOperand (UInt16.ofNat function)), m)
  | some f =>
    if m.limits.callDepth ≤ m.depth then (.error (.callDepthExceeded m.limits.callDepth), m)
    else
      let floor := base + f.locals.toNat
      if m.limits.stackDepth < floor then (.error (.stackOverflow m.limits.stackDepth), m)
      else
        (.ok ⟨function, 0, base, floor⟩,
          { m with stack := m.stack.resize floor, depth := m.depth + 1 })

/-- Go on in the executing frame at `pc`. -/
def CodeRun.goto (run : CodeRun ν) (pc : Nat) : CodeRun ν :=
  { run with frame := { run.frame with pc } }

/-- A trap in the executing instruction. -/
def CodeRun.trap (run : CodeRun ν) (kind : TrapKind) : Trap :=
  ⟨kind, run.chunk.functionName run.frame.function, run.frame.pc⟩

/-- End a run in a trap: the stack is cut back to where the arguments of the call began, and the
call fails. -/
def World.abandon (w : World ν) (argumentsBase depthBefore : Nat) (trap : Trap) : Reply × World ν :=
  World.fail
    { w with
      machine := { w.machine with
        stack := w.machine.stack.truncate argumentsBase
        depth := depthBefore } }
    (.trapped trap)

/-- Trap in the executing instruction of a run. -/
def Config.trap (w : World ν) (run : CodeRun ν) (calls : List (HostCall ν)) (kind : TrapKind) :
    Config ν :=
  let (reply, w) := w.abandon run.argumentsBase run.depthBefore (run.trap kind)
  ⟨w, .host (run.resume reply), calls⟩

/-! ## Calls from host code -/

/-- What a name stands for. -/
inductive Callee (ν : Type) where
  | host (function : HostFunction ν)
  | code (chunk : Chunk) (index : Nat)

/-- The function that a call with this many arguments means. Host functions stand before the
functions of the chunk. -/
def Machine.dispatch (m : Machine ν) (name : String) (arguments : Nat) :
    Except Failure (Callee ν) :=
  if name = "" then .error (.emptyName .function)
  else if m.stack.height < arguments then
    .error (.notEnoughArguments arguments m.stack.height)
  else
    match m.hosts.get? name with
    | some function =>
      if function.arity = arguments then .ok (.host function)
      else .error (.arityMismatch name function.arity arguments)
    | none =>
      match m.chunk with
      | none => .error (.functionNotFound name)
      | some chunk =>
        match chunk.functionIndex? name with
        | none => .error (.functionNotFound name)
        | some index =>
          if chunk.functionArity index = arguments then .ok (.code chunk index)
          else .error (.arityMismatch name (chunk.functionArity index) arguments)

/-- Open a window on the arguments of a host function and execute its body. -/
def Config.openCall (w : World ν) (calls : List (HostCall ν)) (name : String)
    (function : HostFunction ν) (arguments : Nat) (caller : Caller ν) : Config ν :=
  let outerBase := w.machine.stack.base
  let machine := { w.machine with
    stack := w.machine.stack.openWindow arguments
    depth := w.machine.depth + 1 }
  ⟨{ w with machine }, .host function.body, ⟨name, outerBase, caller⟩ :: calls⟩

/-- Call a host function from host code. -/
def Config.callHost (w : World ν) (calls : List (HostCall ν)) (name : String)
    (function : HostFunction ν) (arguments : Nat) (resume : Reply → HostProgram ν) : Config ν :=
  let w := w.log (.hostCalled name arguments)
  if w.machine.limits.callDepth ≤ w.machine.depth then
    let (reply, w) := w.fail (.callDepthExceeded w.machine.limits.callDepth)
    ⟨w, .host (resume reply), calls⟩
  else Config.openCall w calls name function arguments (.program resume)

/-- Call a bytecode function from host code. -/
def Config.callCode (w : World ν) (calls : List (HostCall ν)) (name : String) (chunk : Chunk)
    (index arguments : Nat) (resume : Reply → HostProgram ν) : Config ν :=
  match w.log (.codeCalled name arguments) with
  | ⟨machine, files, journal⟩ =>
    let argumentsBase := machine.stack.size - chunk.functionArity index
    let depthBefore := machine.depth
    match machine.enterFrame chunk index argumentsBase with
    | (.ok frame, machine) =>
      ⟨⟨machine, files, journal⟩,
        .code ⟨chunk, frame, [], argumentsBase, depthBefore, resume⟩, calls⟩
    | (.error kind, machine) =>
      let trap := ⟨kind, chunk.functionName index, 0⟩
      let (reply, w) := World.abandon ⟨machine, files, journal⟩ argumentsBase depthBefore trap
      ⟨w, .host (resume reply), calls⟩

/-- Call a function from host code. -/
def Config.call (w : World ν) (calls : List (HostCall ν)) (name : String) (arguments : Nat)
    (resume : Reply → HostProgram ν) : Config ν :=
  match w.machine.dispatch name arguments with
  | .error failure =>
    let (reply, w) := w.fail failure
    ⟨w, .host (resume reply), calls⟩
  | .ok (.host function) => Config.callHost w calls name function arguments resume
  | .ok (.code chunk index) => Config.callCode w calls name chunk index arguments resume

/-! ## Returns from host functions -/

/-- Close the window of a host function. -/
def World.closeCall (w : World ν) (outerBase : Nat) : World ν :=
  { w with
    machine := { w.machine with
      stack := w.machine.stack.closeWindow outerBase
      depth := w.machine.depth - 1 } }

/-- The body of a host function is done. Host code gets the status as its reply. Bytecode goes on
if the function succeeded and left exactly one value. -/
def Config.closeCall (w : World ν) (call : HostCall ν) (calls : List (HostCall ν))
    (status : Status) : Config ν :=
  let w := w.closeCall call.outerBase
  match call.caller with
  | .program resume =>
    if status.isOk then ⟨w, .host (resume (.ok ())), calls⟩
    else
      let (reply, w) := w.fail (.hostFailed call.name status)
      ⟨w, .host (resume reply), calls⟩
  | .code run window =>
    if !status.isOk then Config.trap w run calls (.hostFailed call.name status)
    else
      let count := w.machine.stack.size - window
      if count = 1 then ⟨w, .code (run.goto (run.frame.pc + 1)), calls⟩
      else Config.trap w run calls (.hostResultCount call.name count)

/-! ## Instructions -/

/-- The host function that a call instruction means, with its name for messages. -/
def Machine.hostTarget (m : Machine ν) (chunk : Chunk) (frame : Frame) (i : Instruction) :
    Except TrapKind (String × HostFunction ν) :=
  match chunk.stringConstant? i.arg1 with
  | none => .error (.invalidOperand i.arg1)
  | some bytes =>
    let name := Text.Utf8.decodeLossy bytes
    match (Text.Utf8.decode? bytes).bind m.hosts.get? with
    | none => .error (.unknownHostFunction name)
    | some function =>
      let arguments := i.arg2.toNat
      if function.arity ≠ arguments then
        .error (.hostArityMismatch name function.arity arguments)
      else if m.stack.size < frame.floor + arguments then .error .stackUnderflow
      else if m.limits.callDepth ≤ m.depth then .error (.callDepthExceeded m.limits.callDepth)
      else .ok (name, function)

/-- Call a host function from bytecode. -/
def Config.hostInstruction (w : World ν) (run : CodeRun ν) (calls : List (HostCall ν))
    (i : Instruction) : Config ν :=
  match w.machine.hostTarget run.chunk run.frame i with
  | .error kind => Config.trap w run calls kind
  | .ok (name, function) =>
    let arguments := i.arg2.toNat
    let window := w.machine.stack.size - arguments
    Config.openCall w calls name function arguments (.code run window)

/-- Call a function of the chunk from bytecode. The arguments become the first locals of the new
frame. -/
def Config.callInstruction (w : World ν) (run : CodeRun ν) (calls : List (HostCall ν))
    (callee : Nat) : Config ν :=
  let arity := run.chunk.functionArity callee
  if w.machine.stack.size < run.frame.floor + arity then Config.trap w run calls .stackUnderflow
  else
    match w with
    | ⟨machine, files, journal⟩ =>
      let base := machine.stack.size - arity
      match machine.enterFrame run.chunk callee base with
      | (.ok frame, machine) =>
        let caller := { run.frame with pc := run.frame.pc + 1 }
        ⟨⟨machine, files, journal⟩, .code { run with frame, outer := caller :: run.outer }, calls⟩
      | (.error kind, machine) => Config.trap ⟨machine, files, journal⟩ run calls kind

/-- Return from the executing frame. Its result takes the place of its locals; with the last frame
the run is over. -/
def Config.returnInstruction (w : World ν) (run : CodeRun ν) (calls : List (HostCall ν)) :
    Config ν :=
  match w with
  | ⟨⟨⟨stack, globals⟩, chunk, hosts, errors, limits, depth⟩, files, journal⟩ =>
    match stack.popAbove run.frame.floor with
    | (none, stack) =>
      Config.trap ⟨⟨⟨stack, globals⟩, chunk, hosts, errors, limits, depth⟩, files, journal⟩
        run calls .stackUnderflow
    | (some value, stack) =>
      let stack := (stack.truncate run.frame.base).push value
      match run.outer with
      | frame :: outer =>
        ⟨⟨⟨⟨stack, globals⟩, chunk, hosts, errors, limits, depth - 1⟩, files, journal⟩,
          .code { run with frame, outer }, calls⟩
      | [] =>
        ⟨⟨⟨⟨stack, globals⟩, chunk, hosts, errors, limits, run.depthBefore⟩, files, journal⟩,
          .host (run.resume (.ok ())), calls⟩

/-- One instruction of bytecode. -/
def Config.codeStep (w : World ν) (run : CodeRun ν) (calls : List (HostCall ν)) : Config ν :=
  match run.chunk.instruction? run.frame.function run.frame.pc with
  | none => Config.trap w run calls (.invalidOperand (UInt16.ofNat run.frame.pc))
  | some i =>
    match w with
    | ⟨⟨store, chunk, hosts, errors, limits, depth⟩, files, journal⟩ =>
      match i.exec run.chunk limits.stackDepth run.frame store with
      | .error kind store =>
        Config.trap ⟨⟨store, chunk, hosts, errors, limits, depth⟩, files, journal⟩ run calls kind
      | .ok flow store =>
        let w : World ν := ⟨⟨store, chunk, hosts, errors, limits, depth⟩, files, journal⟩
        match flow with
        | .next => ⟨w, .code (run.goto (run.frame.pc + 1)), calls⟩
        | .jump target => ⟨w, .code (run.goto target), calls⟩
        | .call callee => Config.callInstruction w run calls callee
        | .host => Config.hostInstruction w run calls i
        | .ret => Config.returnInstruction w run calls

/-! ## Host operations -/

/-- One operation of host code. -/
def Config.hostStep (w : World ν) (calls : List (HostCall ν)) : HostProgram ν → Progress ν
  | .done status =>
    match calls with
    | [] => .halted status w
    | call :: calls => .more (Config.closeCall w call calls status)
  | .ask query next => .more ⟨w, .host (next (query.answer w)), calls⟩
  | .act command next =>
    let (reply, w) := command.perform w
    .more ⟨w, .host (next reply), calls⟩
  | .register name arity body next =>
    let (reply, w) := w.register name ⟨arity, body⟩
    .more ⟨w, .host (next reply), calls⟩
  | .call name arguments next => .more (Config.call w calls name arguments next)
  | .note note next => .more ⟨{ w with journal := w.journal.push (.noted note) }, .host next, calls⟩

/-- One step. -/
def Config.step : Config ν → Progress ν
  | ⟨w, .host program, calls⟩ => Config.hostStep w calls program
  | ⟨w, .code run, calls⟩ => .more (Config.codeStep w run calls)

/-! ## Running -/

/-- At most `steps` steps. The answer is `none` if the outermost program is not done by then. -/
def Config.run : (steps : Nat) → Config ν → Option (Status × World ν)
  | 0, _ => none
  | steps + 1, config =>
    match config.step with
    | .more config => config.run steps
    | .halted status world => some (status, world)

end Bytecode
