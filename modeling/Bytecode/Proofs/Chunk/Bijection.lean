import Bytecode.Proofs.Chunk.Reader

/-!
# The binary form is a bijection

A byte string is read as a chunk if and only if it is the binary form of that chunk and every length
the chunk carries can be written in 32 bits. Among those chunks reading therefore undoes writing,
and writing undoes reading on every byte string that is accepted.

Each reader of the format is shown to read its layout, from the parts of a constant up to the body;
the theorem puts the header in front. Of the checksum nothing is used but its size.
-/

namespace Bytecode

/-! ## Lengths -/

/-- The lengths that a constant carries. -/
def Value.lengths : Value → List Nat
  | .str bytes => [bytes.length]
  | _ => []

/-- The lengths that a function carries: of its name in bytes, and of its code. -/
def FunctionDef.lengths (f : FunctionDef) : List Nat :=
  [(Text.Utf8.encode f.name).length, f.code.size]

namespace Chunk

/-- The lengths that a chunk carries: the sizes of the pool and of the table, and the lengths that
their members carry. -/
def lengths (chunk : Chunk) : List Nat :=
  chunk.constants.size :: chunk.functions.size ::
    (chunk.constants.toList.flatMap Value.lengths
      ++ chunk.functions.toList.flatMap FunctionDef.lengths)

/-- The lengths can all be written in 32 bits. -/
def LengthsFit (lengths : List Nat) : Prop := ∀ n ∈ lengths, n < 2 ^ 32

@[simp] theorem lengthsFit_nil : LengthsFit [] := by
  simp [LengthsFit]

@[simp] theorem lengthsFit_cons_iff {n : Nat} {lengths : List Nat} :
    LengthsFit (n :: lengths) ↔ n < 2 ^ 32 ∧ LengthsFit lengths :=
  List.forall_mem_cons

theorem lengthsFit_iff {chunk : Chunk} :
    LengthsFit chunk.lengths
      ↔ (chunk.constants.size < 2 ^ 32 ∧ ∀ v ∈ chunk.constants, LengthsFit v.lengths)
        ∧ chunk.functions.size < 2 ^ 32 ∧ ∀ f ∈ chunk.functions, LengthsFit f.lengths := by
  simp only [lengths, LengthsFit, List.forall_mem_cons, List.forall_mem_append,
    List.forall_mem_flatMap, Array.mem_toList_iff]
  rw [← and_assoc, and_and_and_comm]

theorem length_checksum (body : Bytes) : (checksum body).length = checksumSize := by
  have hwords : (Digest.Blake3.hash body).length = 32 := by
    simp [Digest.Blake3.hash, List.length_flatMap, List.map_const']
  rw [checksum, List.length_take, hwords]
  rfl

namespace Reader

/-! ## Constants -/

/-- The next boolean, which is zero or one and no other byte. -/
def boolean : Reader Value := do
  match ← byte .boolConstant with
  | 0 => return .bool false
  | 1 => return .bool true
  | other => throw (.invalidBool other)

theorem run_boolean_eq_ok_iff {start after : Cursor} {v : Value} :
    boolean.run start = .ok (v, after)
      ↔ ∃ b, Value.bool b = v ∧ start.Passes [if b then 1 else 0] after := by
  simp only [boolean, run_bind_eq_ok_iff, reads_byte _ _ _ _, true_and]
  constructor
  · rintro ⟨found, middle, hpasses, h⟩
    split at h
    · obtain ⟨rfl, rfl⟩ := run_pure_eq_ok_iff.mp h
      exact ⟨false, rfl, hpasses⟩
    · obtain ⟨rfl, rfl⟩ := run_pure_eq_ok_iff.mp h
      exact ⟨true, rfl, hpasses⟩
    · exact absurd h (run_throw_ne_ok _ _)
  · rintro ⟨b, rfl, hpasses⟩
    refine ⟨_, after, hpasses, ?_⟩
    cases b with
    | false => exact run_pure_eq_ok_iff.mpr ⟨rfl, rfl⟩
    | true => exact run_pure_eq_ok_iff.mpr ⟨rfl, rfl⟩

/-- A constant is a tag and what its type needs, which is read as a part of its own. -/
theorem constant_eq :
    constant = (do
      let tag ← byte .constantTag
      match TypeTag.ofByte? tag with
      | some .i64 => return .i64 (Int64.ofUInt64 (← uint64 .i64Constant))
      | some .f64 => return .f64 (← uint64 .f64Constant)
      | some .bool => boolean
      | some .null => return .null
      | some .str => return .str (← string .stringConstant)
      | some .none | none => throw (.invalidConstantTag tag)) := by
  conv_rhs => simp only [uint64, string, bind_assoc, pure_bind]
  rfl

theorem reads_constant : Reads constant encodeConstant fun v ↦ LengthsFit v.lengths := by
  intro start v after
  rw [constant_eq, run_bind_eq_ok_iff]
  simp only [reads_byte _ _ _ _, true_and]
  constructor
  · rintro ⟨tag, middle, htag, h⟩
    -- The answers in the order of the tags; what is no tag of a value is refused.
    split at h
    case h_1 hof =>
      obtain rfl := TypeTag.ofByte?_eq_some_iff.mp hof
      obtain ⟨n, rfl, -, hpasses⟩ := (reads_uint64 _).run_map_eq_ok_iff.mp h
      exact ⟨lengthsFit_nil, htag.append hpasses⟩
    case h_2 hof =>
      obtain rfl := TypeTag.ofByte?_eq_some_iff.mp hof
      obtain ⟨bits, rfl, -, hpasses⟩ := (reads_uint64 _).run_map_eq_ok_iff.mp h
      exact ⟨lengthsFit_nil, htag.append hpasses⟩
    case h_3 hof =>
      obtain rfl := TypeTag.ofByte?_eq_some_iff.mp hof
      obtain ⟨b, rfl, hpasses⟩ := run_boolean_eq_ok_iff.mp h
      exact ⟨lengthsFit_nil, htag.append hpasses⟩
    case h_4 hof =>
      obtain rfl := TypeTag.ofByte?_eq_some_iff.mp hof
      obtain ⟨rfl, rfl⟩ := run_pure_eq_ok_iff.mp h
      exact ⟨lengthsFit_nil, htag⟩
    case h_5 hof =>
      obtain rfl := TypeTag.ofByte?_eq_some_iff.mp hof
      obtain ⟨bytes, rfl, hlt, hpasses⟩ := (reads_string _).run_map_eq_ok_iff.mp h
      exact ⟨lengthsFit_cons_iff.mpr ⟨hlt, lengthsFit_nil⟩, htag.append hpasses⟩
    all_goals exact absurd h (run_throw_ne_ok _ _)
  · rintro ⟨hfits, hpasses⟩
    obtain ⟨middle, htag, hpasses⟩ := Cursor.passes_cons_iff.mp hpasses
    refine ⟨v.tag.byte, middle, htag, ?_⟩
    rw [TypeTag.ofByte?_byte]
    cases v with
    | i64 n => exact (reads_uint64 _).run_map_eq_ok_iff.mpr ⟨n.toUInt64, rfl, trivial, hpasses⟩
    | f64 bits => exact (reads_uint64 _).run_map_eq_ok_iff.mpr ⟨bits, rfl, trivial, hpasses⟩
    | bool b => exact run_boolean_eq_ok_iff.mpr ⟨b, rfl, hpasses⟩
    | null => exact run_pure_eq_ok_iff.mpr ⟨rfl, Cursor.passes_nil_iff.mp hpasses⟩
    | str bytes =>
      obtain ⟨hlt, -⟩ := lengthsFit_cons_iff.mp hfits
      exact (reads_string _).run_map_eq_ok_iff.mpr ⟨bytes, rfl, hlt, hpasses⟩

theorem reads_constants (part : Part) :
    Reads (list 1 part fun _ ↦ constant)
      (fun constants ↦ encodeCount constants.size ++ constants.toList.flatMap encodeConstant)
      fun constants ↦ constants.size < 2 ^ 32 ∧ ∀ v ∈ constants, LengthsFit v.lengths := by
  have hleast (v : Value) : 1 ≤ (encodeConstant v).length := Nat.le_add_left ..
  exact reads_list (fun _ ↦ reads_constant) hleast part

/-! ## Functions -/

theorem reads_instruction (function pc : Nat) :
    Reads (instruction function pc) (fun i ↦ i.encode.toList) fun _ ↦ True := by
  intro start i after
  simp only [instruction, run_bind_eq_ok_iff, reads_take _ _ _ _ _, true_and]
  constructor
  · rintro ⟨word, middle, hpasses, h⟩
    split at h
    · rename_i found hfound
      obtain ⟨rfl, rfl⟩ := run_pure_eq_ok_iff.mp h
      rwa [Instruction.decode_eq_ok_iff.mp hfound]
    · exact absurd h (run_throw_ne_ok _ _)
  · intro hpasses
    refine ⟨i.encode, after, hpasses, ?_⟩
    rw [Instruction.decode_eq_ok_iff.mpr rfl]
    exact run_pure_eq_ok_iff.mpr ⟨rfl, rfl⟩

theorem function_eq (index : Nat) :
    function index = (do
      let bytes ← string .functionName
      match Text.Utf8.decode? bytes with
      | none => throw (.invalidName index)
      | some name =>
        let arity ← uint16 .functionArity
        let locals ← uint16 .functionLocals
        let code ← list 8 .functionCode (instruction index)
        return ⟨name, arity, locals, code⟩) := by
  conv_rhs => simp only [string, uint16, list, bind_assoc, pure_bind]
  rfl

theorem reads_code (index : Nat) (part : Part) :
    Reads (list 8 part (instruction index))
      (fun code ↦ encodeCount code.size ++ code.toList.flatMap fun i ↦ i.encode.toList)
      fun code ↦ code.size < 2 ^ 32 := by
  intro start code after
  have hleast (i : Instruction) : 8 ≤ i.encode.toList.length := Vector.length_toList.ge
  rw [reads_list (reads_instruction index) hleast]
  simp

theorem reads_function (index : Nat) :
    Reads (function index) encodeFunction fun f ↦ LengthsFit f.lengths := by
  intro start f after
  rw [function_eq, run_bind_eq_ok_iff, encodeFunction, List.append_assoc]
  simp only [reads_string _ _ _ _, FunctionDef.lengths, lengthsFit_cons_iff, lengthsFit_nil,
    and_true]
  constructor
  · rintro ⟨bytes, middle, ⟨hlt, hname⟩, h⟩
    split at h
    · exact absurd h (run_throw_ne_ok _ _)
    · rename_i name hdecode
      obtain rfl := Text.Utf8.decode?_eq_some_iff.mp hdecode
      simp only [run_bind_eq_ok_iff, run_pure_eq_ok_iff, reads_uint16 _ _ _ _, reads_code _ _ _ _ _,
        true_and] at h
      obtain ⟨arity, _, harity, locals, _, hlocals, code, _, ⟨hsize, hcode⟩, rfl, rfl⟩ := h
      exact ⟨⟨hlt, hsize⟩, ((hname.append harity).append hlocals).append hcode⟩
  · rintro ⟨⟨hlt, hsize⟩, hpasses⟩
    obtain ⟨_, hpasses, hcode⟩ := Cursor.passes_append_iff.mp hpasses
    obtain ⟨_, hpasses, hlocals⟩ := Cursor.passes_append_iff.mp hpasses
    obtain ⟨_, hname, harity⟩ := Cursor.passes_append_iff.mp hpasses
    refine ⟨_, _, ⟨hlt, hname⟩, ?_⟩
    rw [Text.Utf8.decode?_eq_some_iff.mpr rfl]
    simp only [run_bind_eq_ok_iff, run_pure_eq_ok_iff, reads_uint16 _ _ _ _, reads_code _ _ _ _ _,
      true_and]
    exact ⟨_, _, harity, _, _, hlocals, _, _, ⟨hsize, hcode⟩, rfl, rfl⟩

theorem reads_functions (part : Part) :
    Reads (list 12 part function)
      (fun functions ↦ encodeCount functions.size ++ functions.toList.flatMap encodeFunction)
      fun functions ↦ functions.size < 2 ^ 32 ∧ ∀ f ∈ functions, LengthsFit f.lengths := by
  -- Two counts and two 16-bit numbers are in every function; name and code may be empty.
  have hleast (f : FunctionDef) : 12 ≤ (encodeFunction f).length := by
    simp only [encodeFunction, encodeCount, List.length_append, Bytes.length_littleEndian]
    omega
  exact reads_list reads_function hleast part

/-! ## Header and body -/

theorem run_header_eq_ok_iff {start after : Cursor} :
    header.run start = .ok ((), after)
      ↔ start.Passes (magic ++ Bytes.littleEndian 2 version ++ Bytes.littleEndian 2 0
        ++ checksum after.rest) after := by
  simp only [header, throw_bind, run_bind_eq_ok_iff, run_check_eq_ok_iff, run_pure_eq_ok_iff,
    run_get_eq_ok_iff, reads_take _ _ _ _ _, reads_number _ _ _ _ _, true_and, bne_iff_ne, ne_eq,
    not_not]
  constructor
  · rintro ⟨_, _, hmagic, hm, _, _, ⟨-, hversion⟩, rfl, _, _, ⟨-, hflags⟩, rfl, _, _, hsum, _, _,
      ⟨rfl, rfl⟩, hs, rfl⟩
    rw [← hm, ← hs]
    exact ((hmagic.append hversion).append hflags).append hsum
  · intro hpasses
    obtain ⟨_, hpasses, hsum⟩ := Cursor.passes_append_iff.mp hpasses
    obtain ⟨_, hpasses, hflags⟩ := Cursor.passes_append_iff.mp hpasses
    obtain ⟨_, hmagic, hversion⟩ := Cursor.passes_append_iff.mp hpasses
    exact ⟨⟨magic.toArray, rfl⟩, _, hmagic, rfl, _, _, ⟨by decide, hversion⟩, rfl, _, _,
      ⟨by decide, hflags⟩, rfl, ⟨(checksum after.rest).toArray, length_checksum _⟩, _, hsum, _, _,
      ⟨rfl, rfl⟩, rfl, rfl⟩

theorem body_eq :
    body = (do
      let constants ← list 1 .constantPool fun _ ↦ constant
      let functions ← list 12 .functionTable function
      let cursor ← get
      if cursor.rest.length != 0 then throw (.trailingBytes cursor.rest.length)
      return ⟨constants, functions⟩) := by
  conv_rhs => simp only [list, bind_assoc]
  rfl

theorem run_body_eq_ok_iff {start after : Cursor} {chunk : Chunk} :
    body.run start = .ok (chunk, after)
      ↔ LengthsFit chunk.lengths ∧ start.Passes chunk.encodeBody after ∧ after.rest = [] := by
  rw [body_eq, encodeBody, List.append_assoc, lengthsFit_iff]
  simp only [throw_bind, run_bind_eq_ok_iff, run_check_eq_ok_iff, run_pure_eq_ok_iff,
    run_get_eq_ok_iff, reads_constants _ _ _ _, reads_functions _ _ _ _, bne_iff_ne, ne_eq, not_not,
    List.length_eq_zero_iff]
  constructor
  · rintro ⟨constants, _, ⟨hconstants, hpool⟩, functions, _, ⟨hfunctions, htable⟩, _, _, ⟨rfl, rfl⟩,
      hnil, rfl, rfl⟩
    exact ⟨⟨hconstants, hfunctions⟩, hpool.append htable, hnil⟩
  · rintro ⟨⟨hconstants, hfunctions⟩, hpasses, hnil⟩
    obtain ⟨_, hpool, htable⟩ := Cursor.passes_append_iff.mp hpasses
    exact ⟨_, _, ⟨hconstants, hpool⟩, _, _, ⟨hfunctions, htable⟩, _, _, ⟨rfl, rfl⟩, hnil, rfl, rfl⟩

end Reader

/-- Behind its own header, a body is read as it stands. -/
theorem decode_withHeader (body : Bytes) :
    decode (withHeader body) = (do
      let (chunk, _) ← Reader.body.run ⟨body, headerSize⟩
      return chunk) := by
  have hheader : Reader.header.run ⟨withHeader body, 0⟩ = .ok ((), ⟨body, headerSize⟩) := by
    refine Reader.run_header_eq_ok_iff.mpr ⟨rfl, ?_⟩
    simp only [List.length_append, Bytes.length_littleEndian, length_checksum]
    rfl
  rw [decode, hheader]
  rfl

theorem decode_withHeader_of_error {body : Bytes} {error : DecodeError}
    (h : Reader.body.run ⟨body, headerSize⟩ = .error error) :
    decode (withHeader body) = .error error := by
  rw [decode_withHeader, h]
  rfl

/-- A byte string decodes to a chunk exactly if it is the chunk's binary form and all lengths that
the chunk carries fit their fields. -/
theorem decode_eq_ok_iff_eq_encode (bytes : Bytes) (chunk : Chunk) :
    decode bytes = .ok chunk ↔ bytes = chunk.encode ∧ ∀ n ∈ chunk.lengths, n < 2 ^ 32 := by
  simp only [decode, bind_eq_ok_iff, Prod.exists]
  constructor
  · rintro ⟨_, middle, hheader, _, after, hbody, hpure⟩
    cases hpure
    obtain ⟨hfits, hpasses, hnil⟩ := Reader.run_body_eq_ok_iff.mp hbody
    have hrest : middle.rest = chunk.encodeBody := by
      rw [hpasses.rest, hnil, List.append_nil]
    have hbytes := (Reader.run_header_eq_ok_iff.mp hheader).rest
    rw [hrest] at hbytes
    exact ⟨hbytes, hfits⟩
  · rintro ⟨rfl, hfits⟩
    have hheader : Reader.header.run ⟨chunk.encode, 0⟩
        = .ok ((), ⟨chunk.encodeBody, headerSize⟩) := by
      refine Reader.run_header_eq_ok_iff.mpr ⟨rfl, ?_⟩
      simp only [List.length_append, Bytes.length_littleEndian, length_checksum]
      rfl
    have hbody : Reader.body.run ⟨chunk.encodeBody, headerSize⟩
        = .ok (chunk, ⟨[], headerSize + chunk.encodeBody.length⟩) :=
      Reader.run_body_eq_ok_iff.mpr ⟨hfits, ⟨(List.append_nil _).symm, rfl⟩, rfl⟩
    exact ⟨(), _, hheader, chunk, _, hbody, rfl⟩

end Chunk

end Bytecode
