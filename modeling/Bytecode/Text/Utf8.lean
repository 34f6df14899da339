import Bytecode.Bytes

/-!
# UTF-8 text in byte strings

Names travel as bytes. `decode?` accepts exactly well-formed UTF-8; `decodeLossy` accepts
everything and puts one replacement character for each maximal part that begins a character and
breaks off, which is the substitution practice of the Unicode standard.
-/

namespace Bytecode.Text.Utf8

/-- The bytes of a text. -/
def encode (text : String) : Bytes :=
  text.toUTF8.data.toList

/-- The text that `bytes` spell, if they are well-formed UTF-8. -/
def decode? (bytes : Bytes) : Option String :=
  String.fromUTF8? ⟨bytes.toArray⟩

/-- The replacement character. -/
def replacement : Char := '\uFFFD'

/-! ## Lossy reading -/

/-- What a first byte of a longer character promises: its own payload bits, how many bytes follow,
and the bounds of the first of them. The bounds rule out overlong forms, surrogates and numbers
beyond the last code point. -/
structure Lead where
  payload : Nat
  owed : Nat
  least : UInt8
  greatest : UInt8

/-- The promise of a first byte, or `none` if no character of two or more bytes begins with it. -/
def Lead.ofByte? (byte : UInt8) : Option Lead :=
  let n := byte.toNat
  if 0xC2 ≤ n ∧ n ≤ 0xDF then some ⟨n - 0xC0, 1, 0x80, 0xBF⟩
  else if n = 0xE0 then some ⟨0, 2, 0xA0, 0xBF⟩
  else if n = 0xED then some ⟨0xD, 2, 0x80, 0x9F⟩
  else if 0xE1 ≤ n ∧ n ≤ 0xEF then some ⟨n - 0xE0, 2, 0x80, 0xBF⟩
  else if n = 0xF0 then some ⟨0, 3, 0x90, 0xBF⟩
  else if 0xF1 ≤ n ∧ n ≤ 0xF3 then some ⟨n - 0xF0, 3, 0x80, 0xBF⟩
  else if n = 0xF4 then some ⟨4, 3, 0x80, 0x8F⟩
  else none

/-- Read the bytes still owed. The answer is the code point, or `none` if the character breaks
off, together with the bytes after the part that was read. -/
def Lead.read : (payload owed : Nat) → (least greatest : UInt8) → Bytes → Option Nat × Bytes
  | payload, 0, _, _, bytes => (some payload, bytes)
  | _, _ + 1, _, _, [] => (none, [])
  | payload, owed + 1, least, greatest, byte :: bytes =>
    if least ≤ byte ∧ byte ≤ greatest then
      Lead.read (payload * 64 + (byte.toNat - 0x80)) owed 0x80 0xBF bytes
    else (none, byte :: bytes)

theorem Lead.length_read_le (payload owed : Nat) (least greatest : UInt8) (bytes : Bytes) :
    (Lead.read payload owed least greatest bytes).2.length ≤ bytes.length := by
  fun_induction Lead.read payload owed least greatest bytes with
  | case1 => simp
  | case2 => simp
  | case3 _ _ _ _ _ _ _ ih => simp only [List.length_cons]; omega
  | case4 => simp

/-- The characters of `bytes`, with a replacement character for every part that is not UTF-8,
after those already read. -/
def chars (bytes : Bytes) (read : Array Char) : Array Char :=
  match bytes with
  | [] => read
  | byte :: bytes =>
    if byte < 0x80 then chars bytes (read.push (Char.ofNat byte.toNat))
    else
      match Lead.ofByte? byte with
      | none => chars bytes (read.push replacement)
      | some lead =>
        let part := Lead.read lead.payload lead.owed lead.least lead.greatest bytes
        chars part.2 (read.push ((part.1.map Char.ofNat).getD replacement))
termination_by bytes.length
decreasing_by
  · simp
  · simp
  · exact Nat.lt_succ_of_le (Lead.length_read_le ..)

/-- The text of `bytes` for display, with a replacement character for every part that is not
UTF-8. -/
def decodeLossy (bytes : Bytes) : String :=
  String.ofList (chars bytes #[]).toList

end Bytecode.Text.Utf8
