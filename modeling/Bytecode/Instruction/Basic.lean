import Bytecode.Bytes
import Bytecode.Instruction.Opcode
import Bytecode.Text.Hex
import Bytecode.Value.TypeTag

/-!
# Instructions

An instruction is a word of eight bytes: opcode, type operand and three 16-bit operands, least
significant byte first. Every field is kept whether the opcode uses it or not, so reading a word and
writing it again gives the same bytes; what an unused field may hold is the verifier's concern.
-/

namespace Bytecode

/-- One instruction. -/
structure Instruction where
  opcode : Opcode
  /-- The type operand, or no type. -/
  tag : TypeTag := .none
  arg1 : UInt16 := 0
  arg2 : UInt16 := 0
  arg3 : UInt16 := 0
  deriving DecidableEq, Repr

/-- An encoded instruction. -/
abbrev Word := Vector UInt8 8

/-- Why a word is not an instruction. -/
inductive WordError where
  /-- The opcode byte is zero, which is never assigned. -/
  | illegalOpcode
  /-- The opcode byte is not assigned. -/
  | invalidOpcode (byte : UInt8)
  /-- The type operand is not a tag. -/
  | reservedTypeTag (byte : UInt8)
  deriving DecidableEq, Repr

def WordError.message : WordError → String
  | .illegalOpcode => "illegal opcode 0x00"
  | .invalidOpcode byte => "invalid opcode: 0x" ++ Text.hexByte byte
  | .reservedTypeTag byte => "reserved type tag: 0x" ++ Text.hexByte byte

/-! ## Reading single bytes -/

/-- The opcode a byte stands for, or why there is none. -/
def Opcode.ofByte (byte : UInt8) : Except WordError Opcode :=
  match ofByte? byte with
  | some op => .ok op
  | none => .error (if byte = 0 then .illegalOpcode else .invalidOpcode byte)

/-- The tag a byte stands for, or why there is none. -/
def TypeTag.ofByte (byte : UInt8) : Except WordError TypeTag :=
  match ofByte? byte with
  | some tag => .ok tag
  | .none => .error (.reservedTypeTag byte)

@[simp] theorem Opcode.ofByte_byte (op : Opcode) : Opcode.ofByte op.byte = .ok op := by
  rw [Opcode.ofByte, Opcode.ofByte?_byte]

@[simp] theorem TypeTag.ofByte_byte (tag : TypeTag) : TypeTag.ofByte tag.byte = .ok tag := by
  rw [TypeTag.ofByte, TypeTag.ofByte?_byte]

namespace Instruction

/-! ## Words -/

/-- The high byte of an operand. -/
def high (n : UInt16) : UInt8 := (n >>> 8).toUInt8

/-- The operand with these bytes. -/
def operand (low high : UInt8) : UInt16 := low.toUInt16 ||| (high.toUInt16 <<< 8)

/-- The word of an instruction. -/
def encode (i : Instruction) : Word :=
  #v[i.opcode.byte, i.tag.byte, i.arg1.toUInt8, high i.arg1, i.arg2.toUInt8, high i.arg2,
    i.arg3.toUInt8, high i.arg3]

/-- The instruction of a word. The opcode is examined before the type operand. -/
def decode (w : Word) : Except WordError Instruction := do
  let opcode ← Opcode.ofByte (w.get 0)
  let tag ← TypeTag.ofByte (w.get 1)
  return ⟨opcode, tag, operand (w.get 2) (w.get 3), operand (w.get 4) (w.get 5),
    operand (w.get 6) (w.get 7)⟩

/-! ## Text -/

/-- The operands an instruction shows after its name. -/
def shownOperands (i : Instruction) : List UInt16 :=
  match i.opcode with
  | .call | .callHost => [i.arg1, i.arg2]
  | .const | .loadLocal | .storeLocal | .getGlobal | .setGlobal | .jump | .jumpIfFalse => [i.arg1]
  | _ => []

/-- An instruction as a line of assembly: its name, the type operand if there is one, and the
operands its opcode uses. -/
def display (i : Instruction) : String :=
  let type := if i.tag = .none then [] else [i.tag.name]
  let operands := i.shownOperands.map fun n ↦ toString n.toNat
  " ".intercalate (i.opcode.mnemonic :: (type ++ operands))

end Instruction

end Bytecode
