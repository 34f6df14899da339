import Bytecode.Machine.Step

/-!
# Separate frames: values and instructions

The machine keeps all values on one stack and finds its way by slots. Here is the same machine
without slots. Every frame owns a list of locals and a list of operands, every piece of host code
owns its window, and nothing else can reach them.

## What is kept and what is not

Globals, registered functions, the loaded chunk, limits, files and the journal are shared by all
parts and stay as they are; `Shared` is the world without its stack and its counter of live calls.
Bases, floors, windows and counters are not kept anywhere. They can be computed from the shape of
the nesting, which is what the comparison of the two machines rests on.

Only the resource limits speak about the whole: the height of the stack is the number of all
values, and the depth is the number of all frames and windows. Both are handed to an instruction
from outside.
-/

namespace Bytecode.Separate

variable {ν : Type}

/-! ## The shared part of the world -/

/-- A world without its stack and its depth. -/
structure Shared (ν : Type) where
  globals : Globals
  chunk : Option Chunk
  hosts : HostRegistry ν
  errors : ErrorState ν
  limits : Limits
  files : Files
  journal : Array (Event ν)

namespace Shared

/-- The world with a stack and a depth added. -/
def world (s : Shared ν) (stack : Stack) (depth : Nat) : World ν :=
  ⟨⟨⟨stack, s.globals⟩, s.chunk, s.hosts, s.errors, s.limits, depth⟩, s.files, s.journal⟩

def ofWorld (w : World ν) : Shared ν :=
  ⟨w.machine.globals, w.machine.chunk, w.machine.hosts, w.machine.errors, w.machine.limits,
    w.files, w.journal⟩

section Fields

variable (s : Shared ν) (stack : Stack) (depth : Nat)

@[simp] theorem stack_world : (s.world stack depth).machine.stack = stack := rfl

@[simp] theorem globals_world : (s.world stack depth).machine.globals = s.globals := rfl

@[simp] theorem chunk_world : (s.world stack depth).machine.chunk = s.chunk := rfl

@[simp] theorem hosts_world : (s.world stack depth).machine.hosts = s.hosts := rfl

@[simp] theorem limits_world : (s.world stack depth).machine.limits = s.limits := rfl

@[simp] theorem depth_world : (s.world stack depth).machine.depth = depth := rfl

@[simp] theorem files_world : (s.world stack depth).files = s.files := rfl

end Fields

/-- The world as host code sees it whose window holds these values. -/
def seen (s : Shared ν) (window : List Value) : World ν :=
  s.world ⟨window.toArray, 0⟩ 0

def log (s : Shared ν) (entry : LogEntry) : Shared ν :=
  { s with journal := s.journal.push (.logged entry) }

/-- Record a failure and announce it. -/
def fail (s : Shared ν) (failure : Failure) : Shared ν :=
  { s with
    errors := s.errors.raise failure.status failure.message
    journal := s.journal ++ s.errors.announcements failure.status failure.message }

end Shared

/-! ## Frames -/

/-- A live call of a bytecode function, with values of its own. -/
structure Frame where
  /-- The index of the function in its chunk. -/
  function : Nat
  /-- The instruction to execute next. -/
  pc : Nat
  /-- The arguments, then the other locals. -/
  locals : List Value
  /-- The operands, the top one first. -/
  operands : List Value

/-- The values of a frame as they would stand on a stack. -/
def Frame.values (f : Frame) : List Value :=
  f.locals ++ f.operands.reverse

/-- The values of several frames, the innermost of which comes first. -/
def stacked : List Frame → List Value
  | [] => []
  | f :: outer => stacked outer ++ f.values

@[simp] theorem stacked_nil : stacked [] = [] := rfl

@[simp] theorem stacked_cons (f : Frame) (outer : List Frame) :
    stacked (f :: outer) = stacked outer ++ f.values := rfl

/-- The locals of a fresh frame: the arguments first, then null, and exactly `size` of them. -/
def freshLocals (size : Nat) (arguments : List Value) : List Value :=
  arguments.take size ++ List.replicate (size - arguments.length) .null

@[simp] theorem length_freshLocals (size : Nat) (arguments : List Value) :
    (freshLocals size arguments).length = size := by
  simp only [freshLocals, List.length_append, List.length_take, List.length_replicate]
  omega

/-- Start a frame on these arguments. Below them stand `under` values, and `depth` calls are live
already. -/
def Frame.enter (limits : Limits) (chunk : Chunk) (function under depth : Nat)
    (arguments : List Value) : Except TrapKind Frame :=
  match chunk.functions[function]? with
  | none => .error (.invalidOperand (UInt16.ofNat function))
  | some f =>
    if limits.callDepth ≤ depth then .error (.callDepthExceeded limits.callDepth)
    else if limits.stackDepth < under + f.locals.toNat then
      .error (.stackOverflow limits.stackDepth)
    else .ok ⟨function, 0, freshLocals f.locals.toNat arguments, []⟩

/-! ## Instructions inside a frame -/

/-- The top operand and the others. -/
def pop : List Value → Except TrapKind (Value × List Value)
  | [] => .error .stackUnderflow
  | value :: operands => .ok (value, operands)

/-- The bytes of a string constant that an operand names. -/
def name (chunk : Chunk) (index : UInt16) : Except TrapKind Bytes :=
  match chunk.stringConstant? index with
  | some name => .ok name
  | none => .error (.invalidOperand index)

/-- The local at an index. -/
def Frame.localAt (f : Frame) (index : UInt16) : Except TrapKind Value :=
  match f.locals[index.toNat]? with
  | some value => .ok value
  | none => .error (.invalidOperand index)

/-- The frame with one operand more than these. Below the operands stand `under` values, and the
whole must stay within the limit. -/
def Frame.push (limit under : Nat) (operands : List Value) (value : Value) (f : Frame) :
    Except TrapKind Frame :=
  if limit ≤ under + operands.length then .error (.stackOverflow limit)
  else .ok { f with operands := value :: operands }

/-- Execute instruction `i` in a frame, up to the place where execution goes on. -/
def Frame.exec (chunk : Chunk) (limit under : Nat) (globals : Globals) (i : Instruction)
    (f : Frame) : Except TrapKind (Flow × Frame × Globals) :=
  match i.opcode with
  | .nop => return (.next, f, globals)
  | .const =>
    match chunk.constants[i.arg1.toNat]? with
    | some value => do
      return (.next, ← f.push limit under f.operands value, globals)
    | none => .error (.invalidOperand i.arg1)
  | .pop => do
    let (_, operands) ← pop f.operands
    return (.next, { f with operands }, globals)
  | .dup => do
    let (top, _) ← pop f.operands
    return (.next, ← f.push limit under f.operands top, globals)
  | .loadLocal => do
    let value ← f.localAt i.arg1
    return (.next, ← f.push limit under f.operands value, globals)
  | .storeLocal => do
    let _ ← f.localAt i.arg1
    let (value, operands) ← pop f.operands
    return (.next, { f with locals := f.locals.set i.arg1.toNat value, operands }, globals)
  | .getGlobal => do
    let name ← name chunk i.arg1
    match globals.get? name with
    | some value => return (.next, ← f.push limit under f.operands value, globals)
    | none => .error (.unknownGlobal (Text.Utf8.decodeLossy name))
  | .setGlobal => do
    let name ← name chunk i.arg1
    let (value, operands) ← pop f.operands
    return (.next, { f with operands }, globals.set name value)
  | .unary op => do
    let (a, operands) ← pop f.operands
    let value ← op.apply a
    return (.next, ← f.push limit under operands value, globals)
  | .binary op => do
    let (b, operands) ← pop f.operands
    let (a, operands) ← pop operands
    let value ← op.apply a b
    return (.next, ← f.push limit under operands value, globals)
  | .jump => return (.jump i.arg1.toNat, f, globals)
  | .jumpIfFalse => do
    let (value, operands) ← pop f.operands
    match value with
    | .bool false => return (.jump i.arg1.toNat, { f with operands }, globals)
    | .bool true => return (.next, { f with operands }, globals)
    | other => .error (.typeMismatch .jumpIfFalse other.tag)
  | .call => return (.call i.arg1.toNat, f, globals)
  | .callHost => return (.host, f, globals)
  | .ret => return (.ret, f, globals)
  | .isType => do
    let (top, _) ← pop f.operands
    return (.next, ← f.push limit under f.operands (.bool (top.tag == i.tag)), globals)

end Bytecode.Separate
