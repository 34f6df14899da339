import Mathlib.Tactic.IntervalCases
import Bytecode.Instruction.Basic
import Bytecode.Text.Utf8

/-!
# Numbers, words and names as bytes

The parts that have no parts of their own: a number of a given width, an instruction and a name.
Each has one layout, and its reader accepts that layout and no other. So every statement here is an
equivalence, of reading a thing with the bytes being the layout of that thing.
-/

namespace Bytecode

theorem bind_eq_ok_iff {ε α β : Type} {x : Except ε α} {f : α → Except ε β} {b : β} :
    x >>= f = .ok b ↔ ∃ a, x = .ok a ∧ f a = .ok b := by
  cases x with
  | ok a => simp [Bind.bind, Except.bind]
  | error e => simp [Bind.bind, Except.bind]

/-! ## Numbers -/

namespace Bytes

theorem toNat_lt (bytes : Bytes) : toNat bytes < 256 ^ bytes.length := by
  induction bytes with
  | nil => simp
  | cons byte bytes ih =>
    have hbyte := byte.toNat_lt
    rw [toNat_cons, List.length_cons, Nat.pow_succ]
    omega

theorem toNat_littleEndian {width n : Nat} (h : n < 256 ^ width) :
    toNat (littleEndian width n) = n := by
  induction width generalizing n with
  | zero =>
    have hn : n = 0 := by simpa using h
    rw [hn, littleEndian, toNat_nil]
  | succ width ih =>
    have hrest : n / 256 < 256 ^ width := by
      rw [Nat.pow_succ] at h
      exact Nat.div_lt_of_lt_mul (by omega)
    rw [littleEndian, toNat_cons, ih hrest, UInt8.toNat_ofNat']
    exact Nat.mod_add_div n 256

theorem littleEndian_toNat (bytes : Bytes) : littleEndian bytes.length (toNat bytes) = bytes := by
  induction bytes with
  | nil => rfl
  | cons byte bytes ih =>
    have hbyte := byte.toNat_lt
    have hlow : UInt8.ofNat (byte.toNat + 256 * toNat bytes) = byte := by
      apply UInt8.toNat_inj.mp
      rw [UInt8.toNat_ofNat']
      omega
    have hrest : (byte.toNat + 256 * toNat bytes) / 256 = toNat bytes := by omega
    rw [toNat_cons, List.length_cons, littleEndian, hlow, hrest, ih]

theorem toNat_eq_iff {bytes : Bytes} {width n : Nat} (h : bytes.length = width) :
    toNat bytes = n ↔ n < 256 ^ width ∧ bytes = littleEndian width n := by
  constructor
  · rintro rfl
    rw [← h]
    exact ⟨toNat_lt bytes, (littleEndian_toNat bytes).symm⟩
  · rintro ⟨hn, rfl⟩
    exact toNat_littleEndian hn

end Bytes

/-! ## Words -/

theorem Opcode.ofByte_eq_ok_iff {byte : UInt8} {op : Opcode} :
    Opcode.ofByte byte = .ok op ↔ op.byte = byte := by
  constructor
  · intro h
    rw [Opcode.ofByte] at h
    split at h
    · rename_i found hfound
      cases h
      simpa using List.find?_some hfound
    · contradiction
  · rintro rfl
    exact Opcode.ofByte_byte op

theorem TypeTag.ofByte?_eq_some_iff {byte : UInt8} {tag : TypeTag} :
    TypeTag.ofByte? byte = some tag ↔ tag.byte = byte := by
  constructor
  · intro h
    simpa using List.find?_some h
  · rintro rfl
    exact TypeTag.ofByte?_byte tag

theorem TypeTag.ofByte_eq_ok_iff {byte : UInt8} {tag : TypeTag} :
    TypeTag.ofByte byte = .ok tag ↔ tag.byte = byte := by
  rw [← TypeTag.ofByte?_eq_some_iff, TypeTag.ofByte]
  split <;> simp_all

namespace Instruction

theorem toNat_operand (low high : UInt8) :
    (operand low high).toNat = low.toNat + 256 * high.toNat := by
  have hlow := low.toNat_lt
  have hhigh := high.toNat_lt
  have hshift : high.toNat <<< 8 % 2 ^ 16 = high.toNat <<< 8 := by
    rw [Nat.shiftLeft_eq]
    omega
  have height : UInt16.toNat 8 % 16 = 8 := rfl
  rw [operand, UInt16.toNat_or, UInt16.toNat_shiftLeft, UInt8.toNat_toUInt16, UInt8.toNat_toUInt16,
    height, hshift, Nat.or_comm, ← Nat.shiftLeft_add_eq_or_of_lt hlow, Nat.shiftLeft_eq]
  omega

theorem toNat_high (n : UInt16) : (high n).toNat = n.toNat / 256 := by
  have hn := n.toNat_lt
  have height : UInt16.toNat 8 % 16 = 8 := rfl
  rw [high, UInt16.toNat_toUInt8, UInt16.toNat_shiftRight, height, Nat.shiftRight_eq_div_pow]
  omega

/-- An operand is given by its two bytes. -/
theorem operand_eq_iff {low upper : UInt8} {n : UInt16} :
    operand low upper = n ↔ n.toUInt8 = low ∧ high n = upper := by
  have hn := n.toNat_lt
  have hlow := low.toNat_lt
  have hupper := upper.toNat_lt
  rw [← UInt16.toNat_inj, ← UInt8.toNat_inj, ← UInt8.toNat_inj, toNat_operand, toNat_high,
    UInt16.toNat_toUInt8]
  omega

theorem eq_of_bytes (word : Word) :
    word = #v[word.get 0, word.get 1, word.get 2, word.get 3, word.get 4, word.get 5, word.get 6,
      word.get 7] := by
  apply Vector.ext
  intro k hk
  interval_cases k <;> rfl

theorem encode_eq_iff {word : Word} {i : Instruction} :
    i.encode = word ↔ i.opcode.byte = word.get 0 ∧ i.tag.byte = word.get 1
      ∧ (i.arg1.toUInt8 = word.get 2 ∧ high i.arg1 = word.get 3)
      ∧ (i.arg2.toUInt8 = word.get 4 ∧ high i.arg2 = word.get 5)
      ∧ i.arg3.toUInt8 = word.get 6 ∧ high i.arg3 = word.get 7 := by
  constructor
  · rintro rfl
    exact ⟨rfl, rfl, ⟨rfl, rfl⟩, ⟨rfl, rfl⟩, rfl, rfl⟩
  · rintro ⟨h0, h1, ⟨h2, h3⟩, ⟨h4, h5⟩, h6, h7⟩
    simp only [encode, h0, h1, h2, h3, h4, h5, h6, h7]
    exact (eq_of_bytes word).symm

/-- A word is read as the instruction whose word it is. -/
theorem decode_eq_ok_iff {word : Word} {i : Instruction} :
    decode word = .ok i ↔ i.encode = word := by
  rw [encode_eq_iff, ← Opcode.ofByte_eq_ok_iff, ← TypeTag.ofByte_eq_ok_iff, ← operand_eq_iff,
    ← operand_eq_iff, ← operand_eq_iff]
  simp only [decode, bind_eq_ok_iff]
  constructor
  · rintro ⟨opcode, hopcode, tag, htag, h⟩
    cases h
    exact ⟨hopcode, htag, rfl, rfl, rfl⟩
  · rintro ⟨hopcode, htag, h1, h2, h3⟩
    refine ⟨i.opcode, hopcode, i.tag, htag, ?_⟩
    rw [h1, h2, h3]
    rfl

end Instruction

/-! ## Names -/

theorem Text.Utf8.decode?_eq_some_iff {bytes : Bytes} {text : String} :
    decode? bytes = some text ↔ encode text = bytes := by
  rw [decode?, encode, String.fromUTF8?]
  constructor
  · intro h
    split at h
    · cases h
      rfl
    · contradiction
  · rintro rfl
    exact dif_pos text.isValidUTF8

end Bytecode
