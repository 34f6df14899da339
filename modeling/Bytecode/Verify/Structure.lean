import Bytecode.Chunk.Basic
import Bytecode.Verify.Error
import Std.Data.HashMap

/-!
# Structural checks

Function headers, unused fields and every reference an operand makes: to constants, locals,
functions, jump targets and names. Each check looks at one function or one instruction and depends
on nothing found before; functions are taken in order, and inside a function first the header and
then the instructions.
-/

namespace Bytecode

/-! ## Unused fields -/

/-- Which fields of an instruction an opcode uses. The third operand is never used. -/
structure UsedFields where
  tag : Bool := false
  arg1 : Bool := false
  arg2 : Bool := false

/-- The fields an opcode uses. -/
def Opcode.usedFields : Opcode → UsedFields
  | .const | .loadLocal | .storeLocal | .getGlobal | .setGlobal | .jump | .jumpIfFalse =>
    ⟨false, true, false⟩
  | .call | .callHost => ⟨false, true, true⟩
  | .isType => ⟨true, false, false⟩
  | .nop | .pop | .dup | .unary _ | .binary _ | .ret => ⟨false, false, false⟩

/-- Whether a field that the opcode does not use is set. -/
def Instruction.setsUnusedField (i : Instruction) : Bool :=
  let used := i.opcode.usedFields
  (!used.tag && i.tag != .none) || (!used.arg1 && i.arg1 != 0) || (!used.arg2 && i.arg2 != 0)
    || i.arg3 != 0

namespace Verify

/-- The unused fields of one instruction. -/
def checkUnusedFields (i : Instruction) (function pc : Nat) : List VerifyError :=
  if i.setsUnusedField then [.nonZeroUnusedField function pc] else []

/-! ## Operands -/

/-- The constant that an operand names must be a non-empty string. -/
def checkName (chunk : Chunk) (index : UInt16) (function pc : Nat) : List VerifyError :=
  match chunk.constants[index.toNat]? with
  | none => [.constantOutOfRange function pc index]
  | some (.str (_ :: _)) => []
  | some _ => [.nameNotString function pc index]

/-- The references one instruction of `f` makes. -/
def checkOperands (chunk : Chunk) (f : FunctionDef) (i : Instruction) (function pc : Nat) :
    List VerifyError :=
  match i.opcode with
  | .const =>
    if i.arg1.toNat < chunk.constants.size then [] else [.constantOutOfRange function pc i.arg1]
  | .getGlobal | .setGlobal | .callHost => checkName chunk i.arg1 function pc
  | .loadLocal | .storeLocal =>
    if i.arg1 < f.locals then [] else [.localOutOfRange function pc i.arg1 f.locals]
  | .jump | .jumpIfFalse =>
    if i.arg1.toNat < f.code.size then [] else [.jumpOutOfRange function pc i.arg1]
  | .call =>
    match chunk.functions[i.arg1.toNat]? with
    | none => [.functionOutOfRange function pc i.arg1]
    | some callee =>
      if callee.arity = i.arg2 then [] else [.callArityMismatch function pc callee.arity i.arg2]
  | .isType => if i.tag.isValueType then [] else [.invalidTypeOperand function pc]
  | .nop | .pop | .dup | .unary _ | .binary _ | .ret => []

/-- All checks of one instruction. -/
def checkInstruction (chunk : Chunk) (f : FunctionDef) (function pc : Nat) (i : Instruction) :
    List VerifyError :=
  checkUnusedFields i function pc ++ checkOperands chunk f i function pc

/-! ## Functions -/

/-- For each name the index of the first function that has it. -/
def firstDefinitions (chunk : Chunk) : Std.HashMap String Nat :=
  chunk.functions.toList.zipIdx.foldl
    (fun first (f, function) ↦ first.insertIfNew f.name function) ∅

/-- A name must not be empty and must not be that of an earlier function. -/
def checkFunctionName (first : Std.HashMap String Nat) (f : FunctionDef) (function : Nat) :
    List VerifyError :=
  if f.name = "" then [.emptyFunctionName function]
  else if first[f.name]? = some function then []
  else [.duplicateFunction function f.name]

/-- There must be a slot for each argument. -/
def checkLocals (f : FunctionDef) (function : Nat) : List VerifyError :=
  if f.locals < f.arity then [.localsBelowArity function f.arity f.locals] else []

/-- The code must end with an instruction that does not fall through. -/
def checkEnd (f : FunctionDef) (function : Nat) : List VerifyError :=
  match f.code.back? with
  | none => [.emptyFunction function]
  | some last => if last.opcode.isTerminator then [] else [.missingReturn function]

/-- All checks of one function. -/
def checkFunction (chunk : Chunk) (first : Std.HashMap String Nat) (f : FunctionDef)
    (function : Nat) : List VerifyError :=
  checkFunctionName first f function ++ checkLocals f function ++ checkEnd f function
    ++ f.code.toList.zipIdx.flatMap fun (i, pc) ↦ checkInstruction chunk f function pc i

/-- All structural errors of a chunk. -/
def checkStructure (chunk : Chunk) : List VerifyError :=
  let first := firstDefinitions chunk
  chunk.functions.toList.zipIdx.flatMap fun (f, function) ↦ checkFunction chunk first f function

end Verify

end Bytecode
