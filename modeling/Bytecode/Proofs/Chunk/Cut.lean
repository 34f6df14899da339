import Bytecode.Proofs.Chunk.Bijection

/-!
# Bodies that are cut or extended

A body that is too short by any number of bytes is reported as ending early, and one that is too
long is reported with the number of bytes too many. No other error can hide either of them, wherever
the cut is.

## Why a cut is found

A reader whose layout is cut has everything up to the cut as it was written, so what it reads until
then is right, and no error but the end of the bytes can come up (`EndsEarly`). A reader made of two
parts is cut in the first part, or the first part is complete and the second one is cut; loops are
cut in one of their items. The only point where more is looked at than the next part is a count,
which is checked against all the bytes left. That check may stop the reader long before the cut, but
it too reports the end of the bytes.
-/

namespace Bytecode.Chunk

/-! ## Cuts -/

/-- The bytes left are a proper initial part of `bytes`. -/
def Cursor.CutsOff (start : Cursor) (bytes : Bytes) : Prop :=
  ∃ missing, missing ≠ [] ∧ start.rest ++ missing = bytes

namespace Cursor

variable {start : Cursor} {bytes first second : Bytes}

theorem not_cutsOff_nil : ¬start.CutsOff [] := by
  rintro ⟨missing, hmissing, hrest⟩
  exact hmissing (List.append_eq_nil_iff.mp hrest).2

theorem CutsOff.length_lt (h : start.CutsOff bytes) : start.rest.length < bytes.length := by
  obtain ⟨missing, hmissing, rfl⟩ := h
  rw [List.length_append]
  exact Nat.lt_add_of_pos_right (List.length_pos_iff.mpr hmissing)

/-- A cut is in the first part, or the first part is complete and the cut is in the second. -/
theorem cutsOff_append_iff :
    start.CutsOff (first ++ second)
      ↔ start.CutsOff first ∨ ∃ middle, start.Passes first middle ∧ middle.CutsOff second := by
  constructor
  · rintro ⟨missing, hmissing, hrest⟩
    rcases List.append_eq_append_iff.mp hrest with ⟨more, hfirst, hmore⟩ | ⟨more, hstart, hmore⟩
    · by_cases hnil : more = []
      · subst hnil
        refine .inr ⟨⟨[], start.offset + first.length⟩, ⟨?_, rfl⟩, missing, hmissing, ?_⟩
        · simpa using hfirst.symm
        · simpa using hmore
      · exact .inl ⟨more, hnil, hfirst.symm⟩
    · exact .inr ⟨⟨more, start.offset + first.length⟩, ⟨hstart, rfl⟩, missing, hmissing, hmore.symm⟩
  · rintro (⟨missing, hmissing, rfl⟩ | ⟨middle, hpasses, missing, hmissing, rfl⟩)
    · exact ⟨missing ++ second, by simp [hmissing], by simp⟩
    · exact ⟨missing, hmissing, by rw [hpasses.rest, List.append_assoc]⟩

end Cursor

namespace Reader

variable {α β : Type} {start middle : Cursor} {bytes : Bytes}

/-! ## Readers that end early -/

/-- The reader finds that the bytes end too early, and reports a place that is not beyond them. -/
def BreaksOff (reader : Reader α) (start : Cursor) : Prop :=
  ∃ offset part, reader.run start = .error (.truncated offset part) ∧
    offset ≤ start.offset + start.rest.length

/-- Wherever the layout of something that `Fits` is cut, the reader finds that. -/
def EndsEarly (reader : Reader α) (layout : α → Bytes) (Fits : α → Prop) : Prop :=
  ∀ start a, Fits a → start.CutsOff (layout a) → reader.BreaksOff start

theorem BreaksOff.bind {reader : Reader α} (h : reader.BreaksOff start) (next : α → Reader β) :
    (reader >>= next).BreaksOff start := by
  obtain ⟨offset, part, hrun, hle⟩ := h
  exact ⟨offset, part, run_bind_of_error hrun, hle⟩

/-- What comes after bytes that were passed is counted from there. -/
theorem BreaksOff.of_passes {reader : Reader α} {next : α → Reader β} {a : α}
    (h : (next a).BreaksOff middle) (hpasses : start.Passes bytes middle)
    (hrun : reader.run start = .ok (a, middle)) : (reader >>= next).BreaksOff start := by
  obtain ⟨offset, part, hnext, hle⟩ := h
  refine ⟨offset, part, by rw [run_bind_of_ok hrun, hnext], ?_⟩
  rw [hpasses.offset] at hle
  rw [hpasses.rest, List.length_append]
  omega

/-- A reader made of two parts: the first is cut, or it is complete and what is read next is cut. -/
theorem EndsEarly.bind {reader : Reader α} {layout : α → Bytes} {Fits : α → Prop}
    (hearly : EndsEarly reader layout Fits) (hreads : Reads reader layout Fits)
    {next : α → Reader β} {a : α} (hfits : Fits a) (hcut : start.CutsOff (layout a ++ bytes))
    (hnext : ∀ middle : Cursor, middle.CutsOff bytes → (next a).BreaksOff middle) :
    (reader >>= next).BreaksOff start := by
  rcases Cursor.cutsOff_append_iff.mp hcut with hcut | ⟨middle, hpasses, hcut⟩
  · exact (hearly start a hfits hcut).bind next
  · exact (hnext middle hcut).of_passes hpasses ((hreads start a middle).mpr ⟨hfits, hpasses⟩)

/-- A reader that answers with a function of what another reads. -/
theorem EndsEarly.breaksOff_map {reader : Reader α} {layout : α → Bytes} {Fits : α → Prop}
    (hearly : EndsEarly reader layout Fits) (g : α → β) {a : α} (hfits : Fits a)
    (hcut : start.CutsOff (layout a)) : (reader >>= fun a ↦ pure (g a)).BreaksOff start :=
  (hearly start a hfits hcut).bind _

/-! ## Bytes, numbers and counts -/

theorem breaksOff_take {n : Nat} (part : Part) (h : start.rest.length < n) :
    (take n part).BreaksOff start := by
  have hlength : (start.rest.take n).length ≠ n := by
    rw [List.length_take]
    omega
  refine ⟨start.offset, part, ?_, Nat.le_add_right _ _⟩
  rw [StateT.run, take, dif_neg hlength]

theorem endsEarly_take (n : Nat) (part : Part) :
    EndsEarly (take n part) Vector.toList fun _ ↦ True := by
  intro start bytes _ hcut
  refine breaksOff_take part ?_
  have hlength := hcut.length_lt
  rwa [Vector.length_toList] at hlength

theorem endsEarly_number (width : Nat) (part : Part) :
    EndsEarly (number width part) (Bytes.littleEndian width) fun _ ↦ True := by
  intro start n _ hcut
  refine (breaksOff_take part ?_).bind _
  have hlength := hcut.length_lt
  rwa [Bytes.length_littleEndian] at hlength

theorem endsEarly_byte (part : Part) : EndsEarly (byte part) (fun b ↦ [b]) fun _ ↦ True := by
  intro start b _ hcut
  exact (breaksOff_take part hcut.length_lt).bind _

theorem endsEarly_uint16 (part : Part) :
    EndsEarly (uint16 part) (fun n ↦ Bytes.littleEndian 2 n.toNat) fun _ ↦ True :=
  fun _ _ _ hcut ↦ (endsEarly_number 2 part).breaksOff_map _ trivial hcut

theorem endsEarly_uint64 (part : Part) :
    EndsEarly (uint64 part) (fun n ↦ Bytes.littleEndian 8 n.toNat) fun _ ↦ True :=
  fun _ _ _ hcut ↦ (endsEarly_number 8 part).breaksOff_map _ trivial hcut

theorem run_count_of_holds_eq_false {least n : Nat} {part : Part} (hn : n < 2 ^ 32)
    (hpasses : start.Passes (encodeCount n) middle)
    (hholds : holds (n * least) middle.rest = false) :
    (count least part).run start = .error (.truncated start.offset part) := by
  have hnumber := (reads_number 4 part start n middle).mpr ⟨hn, hpasses⟩
  rw [count, run_bind_of_ok (run_get_eq_ok_iff.mpr ⟨rfl, rfl⟩), run_bind_of_ok hnumber,
    run_bind_of_ok (run_get_eq_ok_iff.mpr ⟨rfl, rfl⟩), hholds]
  rfl

/-- The check of a count may find the cut before what is counted is read. -/
theorem breaksOff_count_bind {least n : Nat} {part : Part} {next : Nat → Reader β} (hn : n < 2 ^ 32)
    (hcut : start.CutsOff (encodeCount n ++ bytes))
    (hnext : ∀ middle : Cursor, middle.CutsOff bytes → (next n).BreaksOff middle) :
    (count least part >>= next).BreaksOff start := by
  rcases Cursor.cutsOff_append_iff.mp hcut with hcut | ⟨middle, hpasses, hcut⟩
  · refine BreaksOff.bind ?_ next
    obtain ⟨offset, found, hrun, hle⟩ := endsEarly_number 4 part start n trivial hcut
    refine ⟨offset, found, ?_, hle⟩
    rw [count, run_bind_of_ok (run_get_eq_ok_iff.mpr ⟨rfl, rfl⟩), run_bind_of_error hrun]
  · cases hholds : holds (n * least) middle.rest with
    | true =>
      have hcount : (count least part).run start = .ok (n, middle) :=
        run_count_eq_ok_iff.mpr ⟨⟨hn, hpasses⟩, holds_iff.mp hholds⟩
      exact (hnext middle hcut).of_passes hpasses hcount
    | false =>
      have hrun := @run_count_of_holds_eq_false start middle least n part hn hpasses hholds
      exact BreaksOff.bind ⟨_, _, hrun, Nat.le_add_right _ _⟩ next

/-! ## Strings and lists -/

theorem endsEarly_string (part : Part) :
    EndsEarly (string part) (fun bytes ↦ encodeCount bytes.length ++ bytes)
      fun bytes ↦ bytes.length < 2 ^ 32 := by
  intro start bytes hlt hcut
  refine breaksOff_count_bind hlt hcut fun middle hcut ↦ ?_
  exact (breaksOff_take part hcut.length_lt).bind _

/-- A loop is cut in one of its items. -/
theorem breaksOff_items {item : Nat → Reader α} {layout : α → Bytes} {Fits : α → Prop}
    (hearly : ∀ index, EndsEarly (item index) layout Fits)
    (hreads : ∀ index, Reads (item index) layout Fits) {all : List α} (read : Array α)
    (hfits : ∀ a ∈ all, Fits a) (hcut : start.CutsOff (all.flatMap layout)) :
    (items item all.length read).BreaksOff start := by
  induction all generalizing start read with
  | nil => exact absurd hcut Cursor.not_cutsOff_nil
  | cons a all ih =>
    obtain ⟨hfit, hfits⟩ := List.forall_mem_cons.mp hfits
    refine (hearly read.size).bind (hreads read.size) hfit hcut fun middle hcut ↦ ?_
    exact ih (read.push a) hfits hcut

theorem endsEarly_list {item : Nat → Reader α} {layout : α → Bytes} {Fits : α → Prop} {least : Nat}
    (hearly : ∀ index, EndsEarly (item index) layout Fits)
    (hreads : ∀ index, Reads (item index) layout Fits) (part : Part) :
    EndsEarly (list least part item)
      (fun all ↦ encodeCount all.size ++ all.toList.flatMap layout)
      fun all ↦ all.size < 2 ^ 32 ∧ ∀ a ∈ all, Fits a := by
  rintro start all ⟨hlt, hfits⟩ hcut
  refine breaksOff_count_bind hlt hcut fun middle hcut ↦ ?_
  rw [← Array.length_toList]
  exact breaksOff_items hearly hreads #[] (by simpa using hfits) hcut

/-! ## Constants -/

theorem endsEarly_constant : EndsEarly constant encodeConstant fun v ↦ LengthsFit v.lengths := by
  intro start v hfits hcut
  rw [constant_eq]
  refine (endsEarly_byte .constantTag).bind (reads_byte .constantTag) trivial hcut
    fun middle hcut ↦ ?_
  rw [TypeTag.ofByte?_byte]
  cases v with
  | i64 n => exact (endsEarly_uint64 _).breaksOff_map _ trivial hcut
  | f64 bits => exact (endsEarly_uint64 _).breaksOff_map _ trivial hcut
  | bool b => exact (endsEarly_byte _ middle _ trivial hcut).bind _
  | null => exact absurd hcut Cursor.not_cutsOff_nil
  | str bytes =>
    obtain ⟨hlt, -⟩ := lengthsFit_cons_iff.mp hfits
    exact (endsEarly_string _).breaksOff_map _ hlt hcut

/-! ## Functions -/

theorem endsEarly_instruction (function pc : Nat) :
    EndsEarly (instruction function pc) (fun i ↦ i.encode.toList) fun _ ↦ True := by
  intro start i _ hcut
  exact (endsEarly_take 8 .instruction start i.encode trivial hcut).bind _

theorem endsEarly_code (index : Nat) (part : Part) :
    EndsEarly (list 8 part (instruction index))
      (fun code ↦ encodeCount code.size ++ code.toList.flatMap fun i ↦ i.encode.toList)
      fun code ↦ code.size < 2 ^ 32 := by
  intro start code hlt hcut
  exact endsEarly_list (endsEarly_instruction index) (reads_instruction index) part start code
    ⟨hlt, fun _ _ ↦ trivial⟩ hcut

theorem endsEarly_function (index : Nat) :
    EndsEarly (function index) encodeFunction fun f ↦ LengthsFit f.lengths := by
  intro start f hfits hcut
  simp only [FunctionDef.lengths, lengthsFit_cons_iff, lengthsFit_nil, and_true] at hfits
  obtain ⟨hname, hsize⟩ := hfits
  simp only [encodeFunction, List.append_assoc] at hcut
  rw [← List.append_assoc] at hcut
  rw [function_eq]
  refine (endsEarly_string _).bind (reads_string _) hname hcut fun middle hcut ↦ ?_
  rw [Text.Utf8.decode?_eq_some_iff.mpr rfl]
  refine (endsEarly_uint16 _).bind (reads_uint16 _) trivial hcut fun middle hcut ↦ ?_
  refine (endsEarly_uint16 _).bind (reads_uint16 _) trivial hcut fun middle hcut ↦ ?_
  exact (endsEarly_code index _).breaksOff_map _ hsize hcut

/-! ## Body -/

/-- The function table is reached only past a complete pool of constants. -/
theorem breaksOff_body {chunk : Chunk} (hfits : LengthsFit chunk.lengths)
    (hcut : start.CutsOff chunk.encodeBody) : body.BreaksOff start := by
  obtain ⟨hconstants, hfunctions⟩ := lengthsFit_iff.mp hfits
  rw [encodeBody, List.append_assoc] at hcut
  rw [body_eq]
  refine (endsEarly_list (fun _ ↦ endsEarly_constant) (fun _ ↦ reads_constant) _).bind
    (reads_constants _) hconstants hcut fun middle hcut ↦ ?_
  exact (endsEarly_list endsEarly_function reads_function _ middle _ hfunctions hcut).bind _

/-- What is left after a body is counted. -/
theorem run_body_of_passes {chunk : Chunk} (hfits : LengthsFit chunk.lengths)
    (hpasses : start.Passes chunk.encodeBody middle) (hrest : middle.rest ≠ []) :
    body.run start = .error (.trailingBytes middle.rest.length) := by
  obtain ⟨hconstants, hfunctions⟩ := lengthsFit_iff.mp hfits
  rw [encodeBody, List.append_assoc] at hpasses
  obtain ⟨after, hpool, htable⟩ := Cursor.passes_append_iff.mp hpasses
  have hleft : (middle.rest.length != 0) = true := by
    rw [bne_iff_ne, ne_eq, List.length_eq_zero_iff]
    exact hrest
  rw [body_eq, run_bind_of_ok ((reads_constants _ _ _ _).mpr ⟨hconstants, hpool⟩),
    run_bind_of_ok ((reads_functions _ _ _ _).mpr ⟨hfunctions, htable⟩),
    run_bind_of_ok (run_get_eq_ok_iff.mpr ⟨rfl, rfl⟩), hleft]
  rfl

end Reader

/-! ## Chunks -/

theorem drop_encode (chunk : Chunk) : chunk.encode.drop headerSize = chunk.encodeBody := by
  refine List.drop_left' ?_
  simp only [List.length_append, Bytes.length_littleEndian, length_checksum]
  rfl

/-- A body with bytes too many is refused with their number, and a body cut anywhere is refused as
ending early, at a place that is not beyond the cut. -/
theorem cut_or_extended_body_is_diagnosed (chunk : Chunk)
    (hfits : ∀ n ∈ chunk.lengths, n < 2 ^ 32) :
    let body := chunk.encode.drop headerSize
    (∀ extra, extra ≠ [] →
      decode (withHeader (body ++ extra)) = .error (.trailingBytes extra.length)) ∧
    ∀ cut, cut <+: body → cut ≠ body →
      ∃ offset part, decode (withHeader cut) = .error (.truncated offset part) ∧
        offset ≤ 16 + cut.length := by
  intro body
  have hbody : body = chunk.encodeBody := chunk.drop_encode
  rw [hbody]
  constructor
  · intro extra hextra
    have hpasses : Cursor.Passes ⟨chunk.encodeBody ++ extra, headerSize⟩ chunk.encodeBody
        ⟨extra, headerSize + chunk.encodeBody.length⟩ := ⟨rfl, rfl⟩
    exact decode_withHeader_of_error (Reader.run_body_of_passes hfits hpasses hextra)
  · rintro cut ⟨missing, hmissing⟩ hproper
    have hcut : Cursor.CutsOff ⟨cut, headerSize⟩ chunk.encodeBody := by
      refine ⟨missing, fun hnil ↦ hproper ?_, hmissing⟩
      rw [← hmissing, hnil, List.append_nil]
    obtain ⟨offset, part, hrun, hle⟩ := Reader.breaksOff_body hfits hcut
    exact ⟨offset, part, decode_withHeader_of_error hrun, hle⟩

/-! ## A string constant without its last byte, and a function table with one byte more -/

/-- A chunk of one constant and one function. -/
def answering : Chunk where
  constants := #[.str [0x79, 0x65, 0x73]]
  functions := #[⟨"answer", 0, 0, #[{ opcode := .const }, { opcode := .ret }]⟩]

theorem cut_or_extended_body_is_diagnosed_answering :
    (∀ n ∈ answering.lengths, n < 2 ^ 32) ∧
      decode (withHeader (answering.encode.drop headerSize ++ [0])) = .error (.trailingBytes 1) ∧
      ∃ offset part,
        decode (withHeader [1, 0, 0, 0, 5, 3, 0, 0, 0, 0x79, 0x65])
          = .error (.truncated offset part) ∧ offset ≤ 27 := by
  have hfits : ∀ n ∈ answering.lengths, n < 2 ^ 32 := by decide +kernel
  obtain ⟨hextended, hcut⟩ := cut_or_extended_body_is_diagnosed answering hfits
  refine ⟨hfits, hextended [0] nofun, hcut _ ?_ ?_⟩
  · rw [drop_encode]
    decide +kernel
  · rw [drop_encode]
    decide +kernel

end Bytecode.Chunk
