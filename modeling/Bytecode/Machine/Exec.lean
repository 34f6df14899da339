import Bytecode.Machine.Basic
import Bytecode.Machine.Operator

/-!
# Executing an instruction

All frames of a run share the machine's stack. A frame's locals start at its `base` and its operands
stand above its `floor`; the arguments of a call become the first locals of the callee in place.

An instruction either ends in a trap or says how to go on. What it does inside its frame is carried
out here; entering and leaving frames and calling host functions is left to the machine.
-/

namespace Bytecode

/-- A live call of a bytecode function. -/
structure Frame where
  /-- The index of the function in its chunk. -/
  function : Nat
  /-- The instruction to execute next. -/
  pc : Nat
  /-- The slot of the first local. -/
  base : Nat
  /-- The slot of the first operand. -/
  floor : Nat
  deriving DecidableEq, Repr

/-- How execution goes on after an instruction. -/
inductive Flow where
  /-- At the next instruction. -/
  | next
  /-- At another instruction of the function. -/
  | jump (target : Nat)
  /-- In a function of the chunk. -/
  | call (callee : Nat)
  /-- In a host function. -/
  | host
  /-- In the caller. -/
  | ret
  deriving DecidableEq, Repr

/-- A computation on the values of the machine that may end in a trap. -/
abbrev Exec := EStateM TrapKind Store

namespace Exec

/-! ## Operands and locals -/

/-- Push an operand, unless the stack is at its limit. -/
def push (limit : Nat) (value : Value) : Exec Unit := fun store ↦
  if limit ≤ store.stack.size then .error (.stackOverflow limit) store
  else .ok () { store with stack := store.stack.push value }

/-- Take an operand off. -/
def pop (frame : Frame) : Exec Value := fun ⟨stack, globals⟩ ↦
  match stack.popAbove frame.floor with
  | (some value, stack) => .ok value ⟨stack, globals⟩
  | (none, stack) => .error .stackUnderflow ⟨stack, globals⟩

/-- The top operand, which stays. -/
def peek (frame : Frame) : Exec Value := fun store ↦
  if store.stack.size ≤ frame.floor then .error .stackUnderflow store
  else
    match store.stack.slot? (store.stack.size - 1) with
    | some value => .ok value store
    | none => .error .stackUnderflow store

/-- The slot of a local. -/
def localSlot (frame : Frame) (index : UInt16) : Exec Nat :=
  let slot := frame.base + index.toNat
  if slot < frame.floor then return slot else throw (.invalidOperand index)

/-- The value in a slot. -/
def slot (slot : Nat) (index : UInt16) : Exec Value := fun store ↦
  match store.stack.slot? slot with
  | some value => .ok value store
  | none => .error (.invalidOperand index) store

/-- Put a value into a slot. -/
def setSlot (slot : Nat) (value : Value) : Exec Unit := fun store ↦
  .ok () { store with stack := store.stack.setSlot slot value }

/-! ## Names and globals -/

/-- The name that a string constant holds. -/
def name (chunk : Chunk) (index : UInt16) : Exec Bytes :=
  match chunk.stringConstant? index with
  | some name => return name
  | none => throw (.invalidOperand index)

/-- The value of a global. -/
def global (name : Bytes) : Exec Value := fun store ↦
  match store.globals.get? name with
  | some value => .ok value store
  | none => .error (.unknownGlobal (Text.Utf8.decodeLossy name)) store

/-- Bind a global. -/
def setGlobal (name : Bytes) (value : Value) : Exec Unit := fun store ↦
  .ok () { store with globals := store.globals.set name value }

/-- The result of an operator. -/
def result (computed : Except TrapKind Value) : Exec Value :=
  match computed with
  | .ok value => return value
  | .error kind => throw kind

end Exec

/-- Execute instruction `i` in a frame of `chunk`, with at most `limit` values on the stack. -/
def Instruction.exec (chunk : Chunk) (limit : Nat) (frame : Frame) (i : Instruction) : Exec Flow :=
  match i.opcode with
  | .nop => return .next
  | .const =>
    match chunk.constants[i.arg1.toNat]? with
    | some value => do
      Exec.push limit value
      return .next
    | none => throw (.invalidOperand i.arg1)
  | .pop => do
    let _ ← Exec.pop frame
    return .next
  | .dup => do
    let top ← Exec.peek frame
    Exec.push limit top
    return .next
  | .loadLocal => do
    let slot ← Exec.localSlot frame i.arg1
    let value ← Exec.slot slot i.arg1
    Exec.push limit value
    return .next
  | .storeLocal => do
    let slot ← Exec.localSlot frame i.arg1
    let value ← Exec.pop frame
    Exec.setSlot slot value
    return .next
  | .getGlobal => do
    let name ← Exec.name chunk i.arg1
    let value ← Exec.global name
    Exec.push limit value
    return .next
  | .setGlobal => do
    let name ← Exec.name chunk i.arg1
    let value ← Exec.pop frame
    Exec.setGlobal name value
    return .next
  | .unary op => do
    let a ← Exec.pop frame
    let value ← Exec.result (op.apply a)
    Exec.push limit value
    return .next
  | .binary op => do
    let b ← Exec.pop frame
    let a ← Exec.pop frame
    let value ← Exec.result (op.apply a b)
    Exec.push limit value
    return .next
  | .jump => return .jump i.arg1.toNat
  | .jumpIfFalse => do
    let value ← Exec.pop frame
    match value with
    | .bool false => return .jump i.arg1.toNat
    | .bool true => return .next
    | other => throw (.typeMismatch .jumpIfFalse other.tag)
  | .call => return .call i.arg1.toNat
  | .callHost => return .host
  | .ret => return .ret
  | .isType => do
    let top ← Exec.peek frame
    Exec.push limit (.bool (top.tag == i.tag))
    return .next

end Bytecode
