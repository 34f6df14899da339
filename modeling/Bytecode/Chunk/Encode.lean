import Bytecode.Chunk.Basic
import Bytecode.Digest.Blake3
import Bytecode.Text.Utf8

/-!
# The binary form of a chunk

All numbers are little-endian.

```text
0   magic     the bytes of "KSTL"
4   version   16 bits
6   flags     16 bits, reserved, zero
8   checksum  the first 8 bytes of the hash of the body
16  body      constant pool, function table
```

A pool, a table, a string, a name and a function's code are each preceded by their length in
32 bits.
-/

namespace Bytecode.Chunk

/-- The bytes every chunk starts with. -/
def magic : Bytes := [0x4B, 0x53, 0x54, 0x4C]

/-- The version of the format. -/
def version : Nat := 1

/-- The number of bytes before the body. -/
def headerSize : Nat := 16

/-- The number of bytes of the hash that the header keeps. -/
def checksumSize : Nat := 8

/-- The checksum of a body. -/
def checksum (body : Bytes) : Bytes :=
  (Digest.Blake3.hash body).take checksumSize

/-- A length or a count. -/
def encodeCount (n : Nat) : Bytes := Bytes.littleEndian 4 n

/-- A constant: its tag, then what the type needs. -/
def encodeConstant (v : Value) : Bytes :=
  v.tag.byte ::
    match v with
    | .i64 n => Bytes.littleEndian 8 n.toUInt64.toNat
    | .f64 bits => Bytes.littleEndian 8 bits.toNat
    | .bool b => [if b then 1 else 0]
    | .null => []
    | .str bytes => encodeCount bytes.length ++ bytes

/-- A function: name, arity, locals, code. -/
def encodeFunction (f : FunctionDef) : Bytes :=
  let name := Text.Utf8.encode f.name
  encodeCount name.length ++ name
    ++ Bytes.littleEndian 2 f.arity.toNat
    ++ Bytes.littleEndian 2 f.locals.toNat
    ++ encodeCount f.code.size
    ++ f.code.toList.flatMap fun i ↦ i.encode.toList

/-- The constant pool followed by the function table. -/
def encodeBody (chunk : Chunk) : Bytes :=
  encodeCount chunk.constants.size
    ++ chunk.constants.toList.flatMap encodeConstant
    ++ encodeCount chunk.functions.size
    ++ chunk.functions.toList.flatMap encodeFunction

/-- A body behind the header that belongs to it. -/
def withHeader (body : Bytes) : Bytes :=
  magic ++ Bytes.littleEndian 2 version ++ Bytes.littleEndian 2 0 ++ checksum body ++ body

/-- The binary form of a chunk. -/
def encode (chunk : Chunk) : Bytes :=
  withHeader chunk.encodeBody

end Bytecode.Chunk
