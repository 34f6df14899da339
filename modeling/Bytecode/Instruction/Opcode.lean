/-!
# Opcodes

The operations of the instruction set. The operators that compute a value from one or two operands
form families of their own: the verifier and the machine treat a family alike, and what an operator
computes is a function on values.
-/

namespace Bytecode

/-- Operators on one operand. -/
inductive UnaryOp where
  | neg
  | not
  deriving DecidableEq, Repr

/-- Operators on two operands; the one pushed first is the left one. -/
inductive BinaryOp where
  | add
  | sub
  | mul
  | div
  | mod
  | eq
  | neq
  | lt
  | gt
  | lte
  | gte
  | and
  | or
  | concat
  deriving DecidableEq, Repr

/-- The operation an instruction performs. -/
inductive Opcode where
  /-- Do nothing. -/
  | nop
  /-- Push a constant. -/
  | const
  /-- Discard the top value. -/
  | pop
  /-- Push a copy of the top value. -/
  | dup
  /-- Push a local. -/
  | loadLocal
  /-- Pop into a local. -/
  | storeLocal
  /-- Push a global, named by a string constant. -/
  | getGlobal
  /-- Pop into a global, named by a string constant. -/
  | setGlobal
  /-- Replace the top value by the operator's result. -/
  | unary (op : UnaryOp)
  /-- Replace the two top values by the operator's result. -/
  | binary (op : BinaryOp)
  /-- Continue elsewhere. -/
  | jump
  /-- Pop a boolean and continue elsewhere if it is false. -/
  | jumpIfFalse
  /-- Call a function of the chunk. -/
  | call
  /-- Call a host function, named by a string constant. -/
  | callHost
  /-- Return the top value to the caller. -/
  | ret
  /-- Push whether the top value has a type; the value stays. -/
  | isType
  deriving DecidableEq, Repr

namespace UnaryOp

def byte : UnaryOp → UInt8
  | .neg => 0x15
  | .not => 0x32

def mnemonic : UnaryOp → String
  | .neg => "NEG"
  | .not => "NOT"

end UnaryOp

namespace BinaryOp

def byte : BinaryOp → UInt8
  | .add => 0x10
  | .sub => 0x11
  | .mul => 0x12
  | .div => 0x13
  | .mod => 0x14
  | .eq => 0x20
  | .neq => 0x21
  | .lt => 0x22
  | .gt => 0x23
  | .lte => 0x24
  | .gte => 0x25
  | .and => 0x30
  | .or => 0x31
  | .concat => 0x61

def mnemonic : BinaryOp → String
  | .add => "ADD"
  | .sub => "SUB"
  | .mul => "MUL"
  | .div => "DIV"
  | .mod => "MOD"
  | .eq => "EQ"
  | .neq => "NEQ"
  | .lt => "LT"
  | .gt => "GT"
  | .lte => "LTE"
  | .gte => "GTE"
  | .and => "AND"
  | .or => "OR"
  | .concat => "CONCAT"

end BinaryOp

namespace Opcode

/-- All opcodes, in the order of their bytes. -/
def all : List Opcode :=
  [.nop, .const, .pop, .dup, .loadLocal, .storeLocal, .getGlobal, .setGlobal,
    .binary .add, .binary .sub, .binary .mul, .binary .div, .binary .mod, .unary .neg,
    .binary .eq, .binary .neq, .binary .lt, .binary .gt, .binary .lte, .binary .gte,
    .binary .and, .binary .or, .unary .not, .jump, .jumpIfFalse, .call, .callHost, .ret,
    .isType, .binary .concat]

/-- The byte that stands for an opcode. -/
def byte : Opcode → UInt8
  | .nop => 0x01
  | .const => 0x02
  | .pop => 0x03
  | .dup => 0x04
  | .loadLocal => 0x05
  | .storeLocal => 0x06
  | .getGlobal => 0x07
  | .setGlobal => 0x08
  | .unary op => op.byte
  | .binary op => op.byte
  | .jump => 0x40
  | .jumpIfFalse => 0x41
  | .call => 0x50
  | .callHost => 0x51
  | .ret => 0x52
  | .isType => 0x60

/-- The opcode a byte stands for, if it is assigned. -/
def ofByte? (byte : UInt8) : Option Opcode :=
  all.find? fun op ↦ op.byte == byte

theorem mem_all (op : Opcode) : op ∈ all := by
  cases op with
  | unary op => cases op <;> decide
  | binary op => cases op <;> decide
  | _ => decide

theorem ofByte?_byte (op : Opcode) : ofByte? op.byte = some op := by
  cases op with
  | unary op => cases op <;> rfl
  | binary op => cases op <;> rfl
  | _ => rfl

/-- The name of an opcode in assembly and in messages. -/
def mnemonic : Opcode → String
  | .nop => "NOP"
  | .const => "CONST"
  | .pop => "POP"
  | .dup => "DUP"
  | .loadLocal => "LOAD_LOCAL"
  | .storeLocal => "STORE_LOCAL"
  | .getGlobal => "GET_GLOBAL"
  | .setGlobal => "SET_GLOBAL"
  | .unary op => op.mnemonic
  | .binary op => op.mnemonic
  | .jump => "JUMP"
  | .jumpIfFalse => "JUMP_IF_FALSE"
  | .call => "CALL"
  | .callHost => "CALL_HOST"
  | .ret => "RET"
  | .isType => "IS_TYPE"

/-- The opcode of this name. -/
def ofMnemonic? (name : String) : Option Opcode :=
  all.find? fun op ↦ op.mnemonic == name

/-- Whether execution never falls through to the next instruction. -/
def isTerminator : Opcode → Bool
  | .jump | .ret => true
  | _ => false

end Opcode

end Bytecode
