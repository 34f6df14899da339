import Bytecode.Instruction.Basic
import Bytecode.Value.Basic

/-!
# Chunks

A chunk is the loadable unit of bytecode: a pool of constants and a table of named functions. What
makes a chunk safe to run is the verifier's concern; the types here admit every chunk that the
binary format can express, and more.
-/

namespace Bytecode

/-- A function defined in bytecode. -/
structure FunctionDef where
  /-- The name by which host code calls the function. -/
  name : String
  /-- The number of arguments. They occupy the first local slots. -/
  arity : UInt16
  /-- The number of local slots, arguments included. -/
  locals : UInt16
  code : Array Instruction
  deriving DecidableEq, Repr

/-- A pool of constants and a table of functions. -/
structure Chunk where
  /-- What constant and name operands refer to. -/
  constants : Array Value
  /-- What call operands refer to. -/
  functions : Array FunctionDef
  deriving DecidableEq, Repr

namespace Chunk

/-- The index of the first function of this name. -/
def functionIndex? (chunk : Chunk) (name : String) : Option Nat :=
  chunk.functions.findIdx? fun f ↦ f.name == name

/-- The first function of this name. -/
def function? (chunk : Chunk) (name : String) : Option FunctionDef :=
  chunk.functions.find? fun f ↦ f.name == name

/-- The instruction at a place, if both the function and the place exist. -/
def instruction? (chunk : Chunk) (function pc : Nat) : Option Instruction :=
  match chunk.functions[function]? with
  | some f => f.code[pc]?
  | none => none

/-- The name of a function of the table; empty if there is no such function. -/
def functionName (chunk : Chunk) (function : Nat) : String :=
  match chunk.functions[function]? with
  | some f => f.name
  | none => ""

/-- The number of arguments of a function of the table; zero if there is no such function. -/
def functionArity (chunk : Chunk) (function : Nat) : Nat :=
  match chunk.functions[function]? with
  | some f => f.arity.toNat
  | none => 0

/-- The bytes of a string constant. -/
def stringConstant? (chunk : Chunk) (index : UInt16) : Option Bytes :=
  match chunk.constants[index.toNat]? with
  | some constant => constant.asBytes?
  | none => none

end Chunk

end Bytecode
