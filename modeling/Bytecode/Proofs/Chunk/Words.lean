import Mathlib.Data.List.Basic
import Mathlib.Data.Nat.Find
import Bytecode.Proofs.Chunk.Bijection

/-!
# Bodies with arbitrary words

A body is laid out here with any words in the places of the code (`encodeBodyWith`). If all of them
are words of instructions, the body is that of the chunk with these instructions. If not, the reader
stops at the first word that is none, in the order of the functions and of the places in them, and
names that place.

Everything before that word is the layout of something, so it is read by what is known of layouts,
and the index at which a loop has then arrived is the number of items laid out before
(`failsOn_items`). Counts are no obstacle, since replacing words changes no length.
-/

namespace Bytecode

/-! ## Words in place of instructions -/

namespace Chunk

/-- The layout of a function with these words for its code. -/
def encodeFunctionWith (f : FunctionDef) (word : Nat → Word) : Bytes :=
  let name := Text.Utf8.encode f.name
  encodeCount name.length ++ name
    ++ Bytes.littleEndian 2 f.arity.toNat
    ++ Bytes.littleEndian 2 f.locals.toNat
    ++ encodeCount f.code.size
    ++ (List.range f.code.size).flatMap fun pc ↦ (word pc).toList

/-- The body of a chunk with these words for the code of its functions. -/
def encodeBodyWith (chunk : Chunk) (word : Nat → Nat → Word) : Bytes :=
  encodeCount chunk.constants.size
    ++ chunk.constants.toList.flatMap encodeConstant
    ++ encodeCount chunk.functions.size
    ++ chunk.functions.toList.zipIdx.flatMap fun (f, function) ↦
      encodeFunctionWith f (word function)

end Chunk

/-- The function with these instructions for its code. -/
def FunctionDef.withCode (f : FunctionDef) (code : Nat → Instruction) : FunctionDef :=
  { f with code := (Array.range f.code.size).map code }

/-- The chunk with these instructions for the code of its functions. -/
def Chunk.withCode (chunk : Chunk) (code : Nat → Nat → Instruction) : Chunk :=
  { chunk with functions := chunk.functions.mapIdx fun function f ↦ f.withCode (code function) }

@[simp] theorem FunctionDef.lengths_withCode (f : FunctionDef) (code : Nat → Instruction) :
    (f.withCode code).lengths = f.lengths := by
  simp [lengths, withCode]

namespace Chunk

/-- There is an instruction at this place. -/
def HasPlace (chunk : Chunk) (function pc : Nat) : Prop :=
  ∃ i, chunk.instruction? function pc = some i

theorem hasPlace_iff {chunk : Chunk} {function pc : Nat} :
    chunk.HasPlace function pc
      ↔ ∃ f, chunk.functions[function]? = some f ∧ pc < f.code.size := by
  rw [HasPlace, instruction?]
  cases chunk.functions[function]? with
  | none => simp
  | some f => simp [← Option.isSome_iff_exists]

/-- The word at this place is refused, and all words before it are accepted. -/
structure FirstRefused (chunk : Chunk) (word : Nat → Nat → Word) (function pc : Nat)
    (cause : WordError) : Prop where
  place : chunk.HasPlace function pc
  refused : Instruction.decode (word function pc) = .error cause
  before (function' pc' : Nat) : chunk.HasPlace function' pc' →
    function' < function ∨ function' = function ∧ pc' < pc →
    ∃ i, Instruction.decode (word function' pc') = .ok i

variable {chunk : Chunk} {f : FunctionDef} {word : Nat → Nat → Word}
  {code : Nat → Nat → Instruction}

/-- The instructions of the words that are accepted. -/
theorem exists_code {P : Nat → Nat → Prop}
    (h : ∀ function pc, P function pc → ∃ i, Instruction.decode (word function pc) = .ok i) :
    ∃ code : Nat → Nat → Instruction, ∀ function pc, P function pc →
      Instruction.decode (word function pc) = .ok (code function pc) := by
  refine ⟨fun function pc ↦
    (Instruction.decode (word function pc)).toOption.getD { opcode := .nop }, ?_⟩
  intro function pc hP
  obtain ⟨i, hi⟩ := h function pc hP
  simp [hi, Except.toOption]

theorem encodeFunctionWith_eq {word : Nat → Word} {code : Nat → Instruction}
    (h : ∀ pc < f.code.size, (code pc).encode = word pc) :
    encodeFunctionWith f word = encodeFunction (f.withCode code) := by
  have hwords : (List.range f.code.size).flatMap (fun pc ↦ (word pc).toList)
      = (f.withCode code).code.toList.flatMap fun i ↦ i.encode.toList := by
    simp only [FunctionDef.withCode, Array.toList_map, Array.toList_range, List.flatMap_map]
    refine List.flatMap_congr fun pc hpc ↦ ?_
    rw [h pc (List.mem_range.mp hpc)]
  rw [encodeFunctionWith, encodeFunction, hwords]
  simp [FunctionDef.withCode]

/-- Words of instructions make the body of the chunk with these instructions. -/
theorem encodeBodyWith_eq
    (h : ∀ function pc, chunk.HasPlace function pc → (code function pc).encode = word function pc) :
    chunk.encodeBodyWith word = (chunk.withCode code).encodeBody := by
  have htable : chunk.functions.toList.zipIdx.flatMap
        (fun (f, function) ↦ encodeFunctionWith f (word function))
      = (chunk.withCode code).functions.toList.flatMap encodeFunction := by
    simp only [withCode, Array.toList_mapIdx, List.mapIdx_eq_zipIdx_map, List.flatMap_map]
    refine List.flatMap_congr fun a ha ↦ ?_
    have hf : chunk.functions[a.2]? = some a.1 := by
      rw [← Array.getElem?_toList]
      exact List.mk_mem_zipIdx_iff_getElem?.mp ha
    exact encodeFunctionWith_eq fun pc hpc ↦ h a.2 pc (hasPlace_iff.mpr ⟨a.1, hf, hpc⟩)
  rw [encodeBodyWith, encodeBody, htable]
  simp [withCode]

theorem withCode_eq_self
    (h : ∀ function pc i, chunk.instruction? function pc = some i → code function pc = i) :
    chunk.withCode code = chunk := by
  have hcode (function : Nat) (f : FunctionDef) (hf : chunk.functions[function]? = some f) :
      f.withCode (code function) = f := by
    have hsame : (Array.range f.code.size).map (code function) = f.code := by
      refine Array.ext (by simp) fun pc hpc hpc' ↦ ?_
      rw [Array.getElem_map, Array.getElem_range]
      refine h function pc _ ?_
      rw [instruction?, hf]
      exact Array.getElem?_eq_getElem hpc'
    rw [FunctionDef.withCode, hsame]
  have hfunctions : chunk.functions.mapIdx (fun function f ↦ f.withCode (code function))
      = chunk.functions := by
    refine Array.ext (by simp) fun function hfunction hfunction' ↦ ?_
    rw [Array.getElem_mapIdx]
    exact hcode function _ (Array.getElem?_eq_getElem hfunction')
  rw [withCode, hfunctions]

/-- The words of a chunk make its own body. -/
theorem encodeBodyWith_own
    (h : ∀ function pc i, chunk.instruction? function pc = some i → code function pc = i) :
    chunk.encodeBodyWith (fun function pc ↦ (code function pc).encode) = chunk.encodeBody := by
  rw [encodeBodyWith_eq fun _ _ _ ↦ rfl, withCode_eq_self h]

theorem lengths_withCode (chunk : Chunk) (code : Nat → Nat → Instruction) :
    (chunk.withCode code).lengths = chunk.lengths := by
  have hfunctions : (chunk.withCode code).functions.toList.map FunctionDef.lengths
      = chunk.functions.toList.map FunctionDef.lengths := by
    refine List.ext_getElem (by simp [withCode]) fun n hn hn' ↦ ?_
    simp [withCode]
  rw [lengths, lengths, List.flatMap_def, List.flatMap_def, List.flatMap_def, hfunctions]
  simp [withCode, List.flatMap_def]

namespace Reader

variable {α β : Type} {bytes : Bytes} {error : DecodeError}

/-! ## Readers that fail -/

/-- The reader fails in this way where `bytes` come next, whatever follows them. -/
def FailsOn (reader : Reader α) (bytes : Bytes) (error : DecodeError) : Prop :=
  ∀ start after : Cursor, start.Passes bytes after → reader.run start = .error error

theorem FailsOn.append {reader : Reader α} (h : reader.FailsOn bytes error) (more : Bytes) :
    reader.FailsOn (bytes ++ more) error := by
  intro start after hpasses
  obtain ⟨middle, hpasses, -⟩ := Cursor.passes_append_iff.mp hpasses
  exact h start middle hpasses

theorem FailsOn.bind {reader : Reader α} (h : reader.FailsOn bytes error) (next : α → Reader β) :
    (reader >>= next).FailsOn bytes error := by
  intro start after hpasses
  exact run_bind_of_error (h start after hpasses)

/-- What fails behind something that is read. -/
theorem FailsOn.after {reader : Reader α} {layout : α → Bytes} {Fits : α → Prop}
    (hreads : Reads reader layout Fits) {next : α → Reader β} {a : α} (hfits : Fits a)
    (h : (next a).FailsOn bytes error) : (reader >>= next).FailsOn (layout a ++ bytes) error := by
  intro start after hpasses
  obtain ⟨middle, hlayout, hpasses⟩ := Cursor.passes_append_iff.mp hpasses
  rw [run_bind_of_ok ((hreads start a middle).mpr ⟨hfits, hlayout⟩)]
  exact h middle after hpasses

/-- A loop fails in its first item that cannot be read. -/
theorem failsOn_items {item : Nat → Reader α} {layout : α → Bytes} {Fits : α → Prop}
    (hreads : ∀ index, Reads (item index) layout Fits) (all : List α) (left : Nat) {read : Array α}
    (hfits : ∀ a ∈ all, Fits a) (h : (item (read.size + all.length)).FailsOn bytes error) :
    (items item (all.length + 1 + left) read).FailsOn (all.flatMap layout ++ bytes) error := by
  induction all generalizing read with
  | nil =>
    rw [Nat.add_assoc, Nat.add_comm 1 left, ← Nat.add_assoc, items]
    exact h.bind _
  | cons a all ih =>
    obtain ⟨hfit, hfits⟩ := List.forall_mem_cons.mp hfits
    have hcount : (a :: all).length + 1 + left = (all.length + 1 + left) + 1 := by
      rw [List.length_cons]
      omega
    have hindex : read.size + (a :: all).length = (read.push a).size + all.length := by
      rw [Array.size_push, List.length_cons]
      omega
    rw [hindex] at h
    rw [hcount, items, List.flatMap_cons, List.append_assoc]
    exact FailsOn.after (hreads read.size) hfit (ih hfits h)

/-- The same where the items are laid out from a list of something else. -/
theorem failsOn_items_of_getElem? {γ : Type} {source : List γ} {sourceLayout : γ → Bytes}
    {item : Nat → Reader α} {layout : α → Bytes} {Fits : α → Prop}
    (hreads : ∀ index, Reads (item index) layout Fits) (ofSource : γ → α) {k : Nat} {c : γ}
    (hbefore : ∀ c' ∈ source.take k,
      sourceLayout c' = layout (ofSource c') ∧ Fits (ofSource c'))
    (hc : source[k]? = some c) (h : (item k).FailsOn (sourceLayout c) error) :
    (items item source.length #[]).FailsOn (source.flatMap sourceLayout) error := by
  obtain ⟨hlt, hget⟩ := List.getElem?_eq_some_iff.mp hc
  have hlength : ((source.take k).map ofSource).length = k := by
    rw [List.length_map, List.length_take]
    omega
  have hlayout : (source.take k).flatMap sourceLayout
      = ((source.take k).map ofSource).flatMap layout := by
    rw [List.flatMap_map]
    exact List.flatMap_congr fun c' hc' ↦ (hbefore c' hc').1
  have hfits : ∀ a ∈ (source.take k).map ofSource, Fits a := by
    intro a ha
    obtain ⟨c', hc', rfl⟩ := List.mem_map.mp ha
    exact (hbefore c' hc').2
  have hsplit : source = source.take k ++ c :: source.drop (k + 1) := by
    rw [← hget, List.getElem_cons_drop, List.take_append_drop]
  have hcount : source.length
      = ((source.take k).map ofSource).length + 1 + (source.length - k - 1) := by
    rw [hlength]
    omega
  have hbytes : source.flatMap sourceLayout
      = ((source.take k).map ofSource).flatMap layout
        ++ (sourceLayout c ++ (source.drop (k + 1)).flatMap sourceLayout) := by
    conv_lhs => rw [hsplit]
    rw [List.flatMap_append, List.flatMap_cons, hlayout]
  rw [hbytes, hcount]
  refine failsOn_items hreads _ _ hfits ?_
  rw [hlength, List.size_toArray, List.length_nil, Nat.zero_add]
  exact h.append _

/-- The check of a count does not prevent a failure behind it. -/
theorem failsOn_list {item : Nat → Reader α} {least n : Nat} {part : Part} (hn : n < 2 ^ 32)
    (hleast : n * least ≤ bytes.length) (h : (items item n #[]).FailsOn bytes error) :
    (list least part item).FailsOn (encodeCount n ++ bytes) error := by
  intro start after hpasses
  obtain ⟨middle, hcount, hpasses⟩ := Cursor.passes_append_iff.mp hpasses
  have hroom : n * least ≤ middle.rest.length := hleast.trans hpasses.length_le
  rw [list, run_bind_of_ok (run_count_eq_ok_iff.mpr ⟨⟨hn, hcount⟩, hroom⟩)]
  exact h middle after hpasses

/-! ## Words that are refused -/

theorem failsOn_instruction {w : Word} {cause : WordError} (function pc : Nat)
    (h : Instruction.decode w = .error cause) :
    (instruction function pc).FailsOn w.toList (.instruction function pc cause) := by
  intro start after hpasses
  have htake := (reads_take 8 .instruction start w after).mpr ⟨trivial, hpasses⟩
  rw [instruction, run_bind_of_ok htake, h]
  rfl

theorem failsOn_function {f : FunctionDef} {word : Nat → Word} {code : Nat → Instruction}
    {function pc : Nat} {cause : WordError} (hfits : LengthsFit f.lengths) (hpc : pc < f.code.size)
    (hrefused : Instruction.decode (word pc) = .error cause)
    (hbefore : ∀ pc' < pc, Instruction.decode (word pc') = .ok (code pc')) :
    (Reader.function function).FailsOn (encodeFunctionWith f word)
      (.instruction function pc cause) := by
  simp only [FunctionDef.lengths, lengthsFit_cons_iff, lengthsFit_nil, and_true] at hfits
  obtain ⟨hname, hsize⟩ := hfits
  have hwords : (items (instruction function) (List.range f.code.size).length #[]).FailsOn
      ((List.range f.code.size).flatMap fun pc ↦ (word pc).toList)
      (.instruction function pc cause) := by
    refine failsOn_items_of_getElem? (reads_instruction function) code
      (fun pc' hpc' ↦ ⟨?_, trivial⟩) (List.getElem?_range hpc)
      (failsOn_instruction function pc hrefused)
    rw [List.take_range, List.mem_range] at hpc'
    rw [Instruction.decode_eq_ok_iff.mp (hbefore pc' (by omega))]
  have hroom : (List.range f.code.size).length * 8
      ≤ ((List.range f.code.size).flatMap fun pc ↦ (word pc).toList).length :=
    length_mul_le_length_flatMap (fun pc ↦ Vector.length_toList.ge) _
  rw [List.length_range] at hwords hroom
  simp only [encodeFunctionWith, List.append_assoc]
  rw [function_eq, ← List.append_assoc]
  refine FailsOn.after (reads_string _) hname ?_
  rw [Text.Utf8.decode?_eq_some_iff.mpr rfl]
  refine FailsOn.after (reads_uint16 _) trivial ?_
  refine FailsOn.after (reads_uint16 _) trivial ?_
  exact (failsOn_list hsize hroom hwords).bind _

theorem lt_of_mem_take_zipIdx {items : Array α} {k : Nat} {a : α × Nat}
    (h : a ∈ items.toList.zipIdx.take k) : a.2 < k ∧ items[a.2]? = some a.1 := by
  obtain ⟨index, hlt, rfl⟩ := List.mem_take_iff_getElem.mp h
  rw [List.length_zipIdx, Array.length_toList] at hlt
  have hindex : index < k ∧ index < items.size := by omega
  simp [hindex.1, hindex.2]

/-- The functions before the failing one have only words that are accepted. -/
theorem failsOn_functions {chunk : Chunk} {word : Nat → Nat → Word} {function pc : Nat}
    {cause : WordError} (hfits : ∀ f ∈ chunk.functions, LengthsFit f.lengths)
    (h : chunk.FirstRefused word function pc cause) :
    (items Reader.function chunk.functions.toList.zipIdx.length #[]).FailsOn
      (chunk.functions.toList.zipIdx.flatMap fun (f, function) ↦
        encodeFunctionWith f (word function)) (.instruction function pc cause) := by
  obtain ⟨f, hf, hpc⟩ := hasPlace_iff.mp h.place
  obtain ⟨code, hcode⟩ := exists_code fun function' pc' (hbefore : chunk.HasPlace function' pc' ∧
    (function' < function ∨ function' = function ∧ pc' < pc)) ↦
      h.before function' pc' hbefore.1 hbefore.2
  have hinside : ∀ pc' < pc, Instruction.decode (word function pc') = .ok (code function pc') := by
    intro pc' hpc'
    exact hcode function pc' ⟨hasPlace_iff.mpr ⟨f, hf, hpc'.trans hpc⟩, .inr ⟨rfl, hpc'⟩⟩
  have hfailing := @failsOn_function f (word function) (code function) function pc cause
    (hfits f (Array.mem_of_getElem? hf)) hpc h.refused hinside
  have hplace : chunk.functions.toList.zipIdx[function]? = some (f, function) := by
    simp [hf]
  refine failsOn_items_of_getElem? reads_function (fun a ↦ a.1.withCode (code a.2))
    (fun a ha ↦ ?_) hplace hfailing
  obtain ⟨hlt, hget⟩ := lt_of_mem_take_zipIdx ha
  constructor
  · refine encodeFunctionWith_eq fun pc' hpc' ↦ Instruction.decode_eq_ok_iff.mp ?_
    exact hcode a.2 pc' ⟨hasPlace_iff.mpr ⟨a.1, hget, hpc'⟩, .inl hlt⟩
  · rw [FunctionDef.lengths_withCode]
    exact hfits a.1 (Array.mem_of_getElem? hget)

theorem failsOn_body {chunk : Chunk} {word : Nat → Nat → Word} {function pc : Nat}
    {cause : WordError} (hfits : LengthsFit chunk.lengths)
    (h : chunk.FirstRefused word function pc cause) :
    body.FailsOn (chunk.encodeBodyWith word) (.instruction function pc cause) := by
  obtain ⟨hconstants, hcount, hfunctions⟩ := lengthsFit_iff.mp hfits
  have htable := failsOn_functions hfunctions h
  have hleast (a : FunctionDef × Nat) : 12 ≤ (encodeFunctionWith a.1 (word a.2)).length := by
    simp only [encodeFunctionWith, encodeCount, List.length_append, Bytes.length_littleEndian]
    omega
  have hroom := length_mul_le_length_flatMap hleast chunk.functions.toList.zipIdx
  rw [List.length_zipIdx, Array.length_toList] at htable hroom
  rw [body_eq, encodeBodyWith, List.append_assoc]
  refine FailsOn.after (reads_constants _) hconstants ?_
  exact (failsOn_list hcount hroom htable).bind _

end Reader

/-! ## All words -/

/-- A word is refused, or there are instructions for all of them. -/
theorem exists_code_or_firstRefused (chunk : Chunk) (word : Nat → Nat → Word) :
    (∃ code : Nat → Nat → Instruction, ∀ function pc, chunk.HasPlace function pc →
      Instruction.decode (word function pc) = .ok (code function pc)) ∨
    ∃ function pc cause, chunk.FirstRefused word function pc cause := by
  classical
  by_cases haccepted : ∀ function pc, chunk.HasPlace function pc →
      ∃ i, Instruction.decode (word function pc) = .ok i
  · exact .inl (exists_code haccepted)
  · right
    push Not at haccepted
    -- The first function with such a word, then the first such word in it.
    have hfound := Nat.find_spec haccepted
    obtain ⟨hplace, hnone⟩ := Nat.find_spec hfound
    obtain ⟨cause, hcause⟩ : ∃ cause,
        Instruction.decode (word (Nat.find haccepted) (Nat.find hfound)) = .error cause := by
      cases hdecode : Instruction.decode (word (Nat.find haccepted) (Nat.find hfound)) with
      | ok i => exact absurd hdecode (hnone i)
      | error cause => exact ⟨cause, rfl⟩
    refine ⟨_, _, cause, hplace, hcause, fun function' pc' hplace' hbefore ↦ ?_⟩
    by_contra hrefused
    push Not at hrefused
    rcases hbefore with hlt | ⟨rfl, hlt⟩
    · exact Nat.find_min haccepted hlt ⟨pc', hplace', hrefused⟩
    · exact Nat.find_min hfound hlt ⟨hplace', hrefused⟩

/-- A body in which the words of the code are replaced is read as the chunk with their instructions
if all of them have one. Otherwise the reader blames the first word that has none, with the place
and the cause. -/
theorem first_refused_word_is_blamed (chunk : Chunk) (hfits : ∀ n ∈ chunk.lengths, n < 2 ^ 32)
    (word : Nat → Nat → Word) :
    (∀ code : Nat → Nat → Instruction,
      (∀ function pc, chunk.HasPlace function pc →
        Instruction.decode (word function pc) = .ok (code function pc)) →
      decode (withHeader (chunk.encodeBodyWith word)) = .ok (chunk.withCode code)) ∧
    (∀ function pc cause, chunk.FirstRefused word function pc cause →
      decode (withHeader (chunk.encodeBodyWith word)) = .error (.instruction function pc cause)) ∧
    ((∃ code : Nat → Nat → Instruction, ∀ function pc, chunk.HasPlace function pc →
        Instruction.decode (word function pc) = .ok (code function pc)) ∨
      ∃ function pc cause, chunk.FirstRefused word function pc cause) := by
  refine ⟨fun code hcode ↦ ?_, fun function pc cause hrefused ↦ ?_,
    chunk.exists_code_or_firstRefused word⟩
  · have hbody : chunk.encodeBodyWith word = (chunk.withCode code).encodeBody :=
      encodeBodyWith_eq fun function pc hplace ↦
        Instruction.decode_eq_ok_iff.mp (hcode function pc hplace)
    have hlengths : LengthsFit (chunk.withCode code).lengths := by
      rw [lengths_withCode]
      exact hfits
    have hpasses : Cursor.Passes ⟨(chunk.withCode code).encodeBody, headerSize⟩
        (chunk.withCode code).encodeBody
        ⟨[], headerSize + (chunk.withCode code).encodeBody.length⟩ :=
      ⟨(List.append_nil _).symm, rfl⟩
    rw [hbody, decode_withHeader, Reader.run_body_eq_ok_iff.mpr ⟨hlengths, hpasses, rfl⟩]
    rfl
  · have hpasses : Cursor.Passes ⟨chunk.encodeBodyWith word, headerSize⟩ (chunk.encodeBodyWith word)
        ⟨[], headerSize + (chunk.encodeBodyWith word).length⟩ := ⟨(List.append_nil _).symm, rfl⟩
    exact decode_withHeader_of_error (Reader.failsOn_body hfits hrefused _ _ hpasses)

end Chunk

/-! ## A zero word in the second function -/

namespace Chunk

namespace Zeroed

def chunk : Chunk where
  constants := #[.null]
  functions :=
    #[⟨"first", 0, 0, #[{ opcode := .const }, { opcode := .ret }]⟩,
      ⟨"second", 0, 0, #[{ opcode := .nop }, { opcode := .const }, { opcode := .ret }]⟩]

/-- Returns everywhere but from the second word of the second function on, where there are zeros. -/
def word (function pc : Nat) : Word :=
  if function = 1 ∧ 1 ≤ pc then Vector.replicate 8 0 else Instruction.encode { opcode := .ret }

theorem firstRefused : chunk.FirstRefused word 1 1 .illegalOpcode where
  place := ⟨{ opcode := .const }, rfl⟩
  refused := rfl
  before function' pc' _ hbefore := by
    have hword : word function' pc' = Instruction.encode { opcode := .ret } := if_neg (by omega)
    exact ⟨_, Instruction.decode_eq_ok_iff.mpr hword.symm⟩

end Zeroed

theorem first_refused_word_is_blamed_zeroed :
    (∀ n ∈ Zeroed.chunk.lengths, n < 2 ^ 32) ∧
      Zeroed.chunk.FirstRefused Zeroed.word 1 1 .illegalOpcode ∧
      decode (withHeader (Zeroed.chunk.encodeBodyWith Zeroed.word))
        = .error (.instruction 1 1 .illegalOpcode) ∧
      decode (withHeader (Zeroed.chunk.encodeBodyWith
          fun _ _ ↦ Instruction.encode { opcode := .ret }))
        = .ok (Zeroed.chunk.withCode fun _ _ ↦ { opcode := .ret }) := by
  have hfits : ∀ n ∈ Zeroed.chunk.lengths, n < 2 ^ 32 := by decide +kernel
  obtain ⟨-, hrefused, -⟩ := first_refused_word_is_blamed Zeroed.chunk hfits Zeroed.word
  obtain ⟨haccepted, -, -⟩ := first_refused_word_is_blamed Zeroed.chunk hfits
    fun _ _ ↦ Instruction.encode { opcode := .ret }
  refine ⟨hfits, Zeroed.firstRefused, hrefused 1 1 _ Zeroed.firstRefused, haccepted _ ?_⟩
  exact fun _ _ _ ↦ Instruction.decode_eq_ok_iff.mpr rfl

end Chunk

end Bytecode
