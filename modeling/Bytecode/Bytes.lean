/-!
# Byte strings

Byte strings are lists, so that the binary layouts of the library are concatenations and reading
one is taking a list apart. Numbers are laid out little-endian; the width is an argument, so that
all field sizes are one case.
-/

namespace Bytecode

/-- A string of bytes. It need not be text. -/
abbrev Bytes := List UInt8

namespace Bytes

/-! ## Little-endian numbers -/

/-- The `width` low bytes of `n`, least significant first. -/
def littleEndian : (width : Nat) → (n : Nat) → Bytes
  | 0, _ => []
  | width + 1, n => UInt8.ofNat n :: littleEndian width (n / 256)

/-- The number whose base-256 digits are `bytes`, least significant first. -/
def toNat (bytes : Bytes) : Nat :=
  bytes.foldr (fun byte n ↦ byte.toNat + 256 * n) 0

@[simp] theorem length_littleEndian (width n : Nat) : (littleEndian width n).length = width := by
  induction width generalizing n with
  | zero => rfl
  | succ width ih => simp [littleEndian, ih]

@[simp] theorem toNat_nil : toNat [] = 0 := rfl

@[simp] theorem toNat_cons (byte : UInt8) (bytes : Bytes) :
    toNat (byte :: bytes) = byte.toNat + 256 * toNat bytes := rfl

/-! ## Order -/

/-- Bytewise lexicographic order; a proper initial part stands below its extensions. -/
def compare : Bytes → Bytes → Ordering
  | [], [] => .eq
  | [], _ :: _ => .lt
  | _ :: _, [] => .gt
  | a :: as, b :: bs => if a < b then .lt else if b < a then .gt else compare as bs

end Bytes

end Bytecode
