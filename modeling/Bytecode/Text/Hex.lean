/-!
# Hexadecimal numerals

Lowercase, padded with zeros to a least number of digits.
-/

namespace Bytecode.Text

/-- `n` in lowercase hexadecimal with at least `width` digits. -/
def hex (width n : Nat) : String :=
  let digits := Nat.toDigits 16 n
  String.ofList (List.replicate (width - digits.length) '0' ++ digits)

/-- A byte as its two hexadecimal digits. -/
def hexByte (byte : UInt8) : String :=
  hex 2 byte.toNat

/-- A list of bytes in brackets, each as two hexadecimal digits. -/
def hexList (bytes : List UInt8) : String :=
  "[" ++ ", ".intercalate (bytes.map hexByte) ++ "]"

end Bytecode.Text
