import Bytecode.Chunk.DecodeError
import Bytecode.Chunk.Encode

/-!
# Reading a chunk

A reader takes bytes off the front of what is left and counts how many it took, so that an error
can name the offset where the part in hand began. A count is refused at once if what is left cannot
hold that many items of the least size; a refused count never leads to reading.
-/

namespace Bytecode.Chunk

/-- What is left to read, and the offset it begins at. -/
structure Cursor where
  rest : Bytes
  offset : Nat

/-- A reader of `α`. -/
abbrev Reader (α : Type) := StateT Cursor (Except DecodeError) α

namespace Reader

/-- Take the next `n` bytes. -/
def take (n : Nat) (part : Part) : Reader (Vector UInt8 n) := fun cursor ↦
  let bytes := cursor.rest.take n
  if h : bytes.length = n then
    .ok (⟨bytes.toArray, h⟩, ⟨cursor.rest.drop n, cursor.offset + n⟩)
  else .error (.truncated cursor.offset part)

/-- The next number of `width` bytes. -/
def number (width : Nat) (part : Part) : Reader Nat := do
  let bytes ← take width part
  return Bytes.toNat bytes.toList

/-- The next byte. -/
def byte (part : Part) : Reader UInt8 := do
  let bytes ← take 1 part
  return bytes.get 0

/-- Whether there are at least `n` bytes; no more than `n` of them are looked at. -/
def holds (n : Nat) (bytes : Bytes) : Bool :=
  n == 0 || !(bytes.drop (n - 1)).isEmpty

/-- The next count of items of at least `least` bytes each. It is refused, at the offset where it
stands, if what follows it is too short for them. -/
def count (least : Nat) (part : Part) : Reader Nat := do
  let start ← get
  let n ← number 4 part
  let after ← get
  if holds (n * least) after.rest then return n
  else throw (.truncated start.offset part)

/-- Read `n` items one after the other; the reader of an item is told its index. -/
def items {α : Type} (item : Nat → Reader α) : (n : Nat) → (read : Array α) → Reader (Array α)
  | 0, read => return read
  | n + 1, read => do
    let next ← item read.size
    items item n (read.push next)

/-- The next constant. -/
def constant : Reader Value := do
  let tag ← byte .constantTag
  match TypeTag.ofByte? tag with
  | some .i64 => return .i64 (Int64.ofUInt64 (UInt64.ofNat (← number 8 .i64Constant)))
  | some .f64 => return .f64 (UInt64.ofNat (← number 8 .f64Constant))
  | some .bool =>
    match ← byte .boolConstant with
    | 0 => return .bool false
    | 1 => return .bool true
    | other => throw (.invalidBool other)
  | some .null => return .null
  | some .str =>
    let length ← count 1 .stringConstant
    let bytes ← take length .stringConstant
    return .str bytes.toList
  | some .none | none => throw (.invalidConstantTag tag)

/-- The next instruction, which is the one at `pc` of `function`. -/
def instruction (function pc : Nat) : Reader Instruction := do
  let word ← take 8 .instruction
  match Instruction.decode word with
  | .ok i => return i
  | .error cause => throw (.instruction function pc cause)

/-- The next function, which is the one at `index` of the table. -/
def function (index : Nat) : Reader FunctionDef := do
  let length ← count 1 .functionName
  let bytes ← take length .functionName
  match Text.Utf8.decode? bytes.toList with
  | none => throw (.invalidName index)
  | some name =>
    let arity ← number 2 .functionArity
    let locals ← number 2 .functionLocals
    let size ← count 8 .functionCode
    let code ← items (instruction index) size #[]
    return ⟨name, UInt16.ofNat arity, UInt16.ofNat locals, code⟩

/-- The header, up to and including the checksum of what follows it. -/
def header : Reader Unit := do
  let start ← take 4 .magic
  if start.toList != magic then throw .badMagic
  let found ← number 2 .version
  if found != version then throw (.unsupportedVersion (UInt16.ofNat found))
  let flags ← number 2 .flags
  if flags != 0 then throw (.reservedFlags (UInt16.ofNat flags))
  let expected ← take checksumSize .checksum
  let computed := checksum (← get).rest
  if expected.toList != computed then throw (.checksumMismatch expected.toList computed)

/-- The constant pool and the function table, and nothing after them. -/
def body : Reader Chunk := do
  let constantCount ← count 1 .constantPool
  let constants ← items (fun _ ↦ constant) constantCount #[]
  let functionCount ← count 12 .functionTable
  let functions ← items function functionCount #[]
  let left := (← get).rest.length
  if left != 0 then throw (.trailingBytes left)
  return ⟨constants, functions⟩

end Reader

/-- The chunk whose binary form `bytes` are, or the first thing wrong with them. -/
def decode (bytes : Bytes) : Except DecodeError Chunk := do
  let (_, cursor) ← Reader.header.run ⟨bytes, 0⟩
  let (chunk, _) ← Reader.body.run cursor
  return chunk

end Bytecode.Chunk
