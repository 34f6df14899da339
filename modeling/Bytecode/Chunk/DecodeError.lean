import Bytecode.Instruction.Basic

/-!
# Decode errors

Why a byte string is not an encoded chunk. A chunk that decodes and is nevertheless wrong is
reported by the verifier.
-/

namespace Bytecode

/-- The part of an encoded chunk that is being read. -/
inductive Part where
  | magic
  | version
  | flags
  | checksum
  | constantPool
  | constantTag
  | i64Constant
  | f64Constant
  | boolConstant
  | stringConstant
  | functionTable
  | functionName
  | functionArity
  | functionLocals
  | functionCode
  | instruction
  deriving DecidableEq, Repr

def Part.text : Part → String
  | .magic => "magic"
  | .version => "version"
  | .flags => "flags"
  | .checksum => "checksum"
  | .constantPool => "constant pool"
  | .constantTag => "constant tag"
  | .i64Constant => "i64 constant"
  | .f64Constant => "f64 constant"
  | .boolConstant => "bool constant"
  | .stringConstant => "string constant"
  | .functionTable => "function table"
  | .functionName => "function name"
  | .functionArity => "function arity"
  | .functionLocals => "function locals"
  | .functionCode => "function code"
  | .instruction => "instruction"

/-- Why a byte string is not an encoded chunk. -/
inductive DecodeError where
  /-- The bytes do not start as a chunk does. -/
  | badMagic
  /-- The header names another version of the format. -/
  | unsupportedVersion (version : UInt16)
  /-- The header sets flags, which are all reserved. -/
  | reservedFlags (flags : UInt16)
  /-- The checksum of the header is not that of the body. -/
  | checksumMismatch (expected computed : Bytes)
  /-- The bytes end inside a part, or cannot hold as many items as a part announces. -/
  | truncated (offset : Nat) (part : Part)
  /-- Bytes remain after the function table. -/
  | trailingBytes (count : Nat)
  /-- The tag of a constant is not the tag of a value. -/
  | invalidConstantTag (byte : UInt8)
  /-- A boolean constant is neither zero nor one. -/
  | invalidBool (byte : UInt8)
  /-- The name of a function is not UTF-8. -/
  | invalidName (function : Nat)
  /-- A word of a function is not an instruction. -/
  | instruction (function pc : Nat) (cause : WordError)
  deriving DecidableEq, Repr

def DecodeError.message : DecodeError → String
  | .badMagic => "bad magic: expected \"KSTL\""
  | .unsupportedVersion version => s!"unsupported chunk version {version.toNat}"
  | .reservedFlags flags => "reserved header flags set: 0x" ++ Text.hex 4 flags.toNat
  | .checksumMismatch expected computed =>
    s!"checksum mismatch: header {Text.hexList expected}, body {Text.hexList computed}"
  | .truncated offset part =>
    s!"unexpected end of input at offset {offset} while reading {part.text}"
  | .trailingBytes count => s!"{count} trailing bytes after function table"
  | .invalidConstantTag byte => "invalid constant tag 0x" ++ Text.hexByte byte
  | .invalidBool byte => "invalid boolean byte 0x" ++ Text.hexByte byte
  | .invalidName function => s!"function {function} has a name that is not valid UTF-8"
  | .instruction function pc cause => s!"function {function}, instruction {pc}: {cause.message}"

end Bytecode
