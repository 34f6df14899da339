import Bytecode.Chunk.Decode
import Bytecode.Proofs.Layout

/-!
# What the readers accept

A reader that succeeds moves the cursor over some bytes, and its answer is the thing those bytes are
the layout of. Both directions are said at once: `Reads` holds of a reader, a layout and a condition
if the reader answers `a` exactly where the layout of `a` comes next and `a` meets the condition.
Conditions arise from lengths alone, which are written in 32 bits.

The readers of a string and of a list are named here. Each begins with a count, and the count is
checked against the bytes left before anything is read; that check refuses nothing that could be
read, since no item is shorter than the check supposes.
-/

namespace Bytecode.Chunk

/-! ## Cursors -/

/-- `after` is where a cursor stands that has passed `bytes` from `start`. -/
structure Cursor.Passes (start : Cursor) (bytes : Bytes) (after : Cursor) : Prop where
  rest : start.rest = bytes ++ after.rest
  offset : after.offset = start.offset + bytes.length

namespace Cursor

variable {start after : Cursor}

@[simp] theorem passes_nil_iff : start.Passes [] after ↔ start = after := by
  constructor
  · rintro ⟨hrest, hoffset⟩
    cases start
    cases after
    simp_all
  · rintro rfl
    exact ⟨rfl, rfl⟩

theorem passes_append_iff {first second : Bytes} :
    start.Passes (first ++ second) after
      ↔ ∃ middle, start.Passes first middle ∧ middle.Passes second after := by
  constructor
  · rintro ⟨hrest, hoffset⟩
    rw [List.length_append, ← Nat.add_assoc] at hoffset
    rw [List.append_assoc] at hrest
    exact ⟨⟨second ++ after.rest, start.offset + first.length⟩, ⟨hrest, rfl⟩, ⟨rfl, hoffset⟩⟩
  · rintro ⟨middle, ⟨hrest, hoffset⟩, ⟨hrest', hoffset'⟩⟩
    constructor
    · rw [hrest, hrest', List.append_assoc]
    · rw [hoffset', hoffset, List.length_append, Nat.add_assoc]

theorem Passes.append {middle : Cursor} {first second : Bytes} (h : start.Passes first middle)
    (h' : middle.Passes second after) : start.Passes (first ++ second) after :=
  passes_append_iff.mpr ⟨middle, h, h'⟩

theorem passes_cons_iff {byte : UInt8} {bytes : Bytes} :
    start.Passes (byte :: bytes) after
      ↔ ∃ middle, start.Passes [byte] middle ∧ middle.Passes bytes after :=
  @passes_append_iff start after [byte] bytes

theorem Passes.length_le {bytes : Bytes} (h : start.Passes bytes after) :
    bytes.length ≤ start.rest.length := by
  rw [h.rest, List.length_append]
  exact Nat.le_add_right ..

end Cursor

namespace Reader

variable {α β : Type} {start after : Cursor}

/-! ## Running a reader -/

theorem run_bind_eq_ok_iff {reader : Reader α} {next : α → Reader β} {b : β} :
    (reader >>= next).run start = .ok (b, after)
      ↔ ∃ a middle, reader.run start = .ok (a, middle) ∧ (next a).run middle = .ok (b, after) := by
  rw [StateT.run_bind, bind_eq_ok_iff, Prod.exists]

theorem run_bind_of_error {reader : Reader α} {next : α → Reader β} {error : DecodeError}
    (h : reader.run start = .error error) : (reader >>= next).run start = .error error := by
  rw [StateT.run_bind, h]
  rfl

theorem run_bind_of_ok {reader : Reader α} {next : α → Reader β} {a : α}
    (h : reader.run start = .ok (a, after)) : (reader >>= next).run start = (next a).run after := by
  rw [StateT.run_bind, h]
  rfl

theorem run_pure_eq_ok_iff {a b : α} :
    (pure a : Reader α).run start = .ok (b, after) ↔ a = b ∧ start = after := by
  rw [StateT.run_pure]
  simp [pure, Except.pure]

theorem run_get_eq_ok_iff {cursor : Cursor} :
    (get : Reader Cursor).run start = .ok (cursor, after) ↔ start = cursor ∧ start = after := by
  rw [StateT.run_get]
  simp [pure, Except.pure]

theorem run_throw_ne_ok (error : DecodeError) (a : α) :
    (throw error : Reader α).run start ≠ .ok (a, after) := by
  intro h
  cases h

theorem throw_bind (error : DecodeError) (next : α → Reader β) :
    (throw error : Reader α) >>= next = throw error := rfl

/-- A check made before reading on. -/
theorem run_check_eq_ok_iff {c : Prop} [Decidable c] {error : DecodeError} {next : Reader α}
    {a : α} :
    (if c then throw error else next).run start = .ok (a, after)
      ↔ ¬c ∧ next.run start = .ok (a, after) := by
  split
  · rename_i hc
    constructor
    · intro h
      exact absurd h (run_throw_ne_ok _ _)
    · rintro ⟨hc', -⟩
      exact absurd hc hc'
  · rename_i hc
    exact (and_iff_right hc).symm

/-- The reader answers `a` exactly where the layout of `a` comes next, provided that `a` `Fits`. -/
def Reads (reader : Reader α) (layout : α → Bytes) (Fits : α → Prop) : Prop :=
  ∀ start a after, reader.run start = .ok (a, after) ↔ Fits a ∧ start.Passes (layout a) after

/-- A reader that answers with a function of what another reads. -/
theorem Reads.run_map_eq_ok_iff {reader : Reader α} {layout : α → Bytes} {Fits : α → Prop}
    (h : Reads reader layout Fits) {g : α → β} {b : β} :
    (reader >>= fun a ↦ pure (g a)).run start = .ok (b, after)
      ↔ ∃ a, g a = b ∧ Fits a ∧ start.Passes (layout a) after := by
  simp only [run_bind_eq_ok_iff, run_pure_eq_ok_iff, h _ _ _]
  constructor
  · rintro ⟨a, _, ⟨hfits, hpasses⟩, hb, rfl⟩
    exact ⟨a, hb, hfits, hpasses⟩
  · rintro ⟨a, hb, hfits, hpasses⟩
    exact ⟨a, after, ⟨hfits, hpasses⟩, hb, rfl⟩

/-! ## Bytes and numbers -/

theorem reads_take (n : Nat) (part : Part) :
    Reads (take n part) Vector.toList fun _ ↦ True := by
  intro start bytes after
  rw [StateT.run, take, true_and]
  constructor
  · intro h
    split at h
    · rename_i hlength
      cases h
      constructor
      · simp
      · simp [hlength]
    · cases h
  · rintro ⟨hrest, hoffset⟩
    have hlength : bytes.toList.length = n := Vector.length_toList
    have htake : start.rest.take n = bytes.toList := by rw [hrest, List.take_left' hlength]
    have hdrop : start.rest.drop n = after.rest := by rw [hrest, List.drop_left' hlength]
    simp only [htake, hdrop, hlength, ↓reduceDIte]
    rw [hlength] at hoffset
    rw [← hoffset]
    rfl

theorem reads_number (width : Nat) (part : Part) :
    Reads (number width part) (Bytes.littleEndian width) fun n ↦ n < 256 ^ width := by
  intro start n after
  rw [number, (reads_take width part).run_map_eq_ok_iff]
  constructor
  · rintro ⟨bytes, hn, -, hpasses⟩
    obtain ⟨hlt, hbytes⟩ := (Bytes.toNat_eq_iff Vector.length_toList).mp hn
    rw [hbytes] at hpasses
    exact ⟨hlt, hpasses⟩
  · rintro ⟨hlt, hpasses⟩
    exact ⟨⟨(Bytes.littleEndian width n).toArray, by simp⟩, Bytes.toNat_littleEndian hlt, trivial,
      hpasses⟩

theorem reads_byte (part : Part) : Reads (byte part) (fun b ↦ [b]) fun _ ↦ True := by
  intro start b after
  rw [byte, (reads_take 1 part).run_map_eq_ok_iff, true_and]
  constructor
  · rintro ⟨bytes, rfl, -, hpasses⟩
    obtain ⟨⟨list⟩, hlength⟩ := bytes
    obtain ⟨b, rfl⟩ := List.length_eq_one_iff.mp hlength
    exact hpasses
  · intro hpasses
    exact ⟨#v[b], rfl, trivial, hpasses⟩

/-- Machine words of `width` bytes, as a type whose members are the numbers below `256 ^ width`. -/
theorem reads_word {width : Nat} {ofNat : Nat → α} {toNat : α → Nat}
    (hlt : ∀ a, toNat a < 256 ^ width) (hto : ∀ n < 256 ^ width, toNat (ofNat n) = n)
    (hof : ∀ a, ofNat (toNat a) = a) (part : Part) :
    Reads (do return ofNat (← number width part)) (fun a ↦ Bytes.littleEndian width (toNat a))
      fun _ ↦ True := by
  intro start a after
  rw [(reads_number width part).run_map_eq_ok_iff, true_and]
  constructor
  · rintro ⟨n, rfl, hn, hpasses⟩
    simpa only [hto n hn] using hpasses
  · intro hpasses
    exact ⟨toNat a, hof a, hlt a, hpasses⟩

/-- The next number of 16 bits. -/
def uint16 (part : Part) : Reader UInt16 := do
  return UInt16.ofNat (← number 2 part)

/-- The next number of 64 bits. -/
def uint64 (part : Part) : Reader UInt64 := do
  return UInt64.ofNat (← number 8 part)

theorem reads_uint16 (part : Part) :
    Reads (uint16 part) (fun n ↦ Bytes.littleEndian 2 n.toNat) fun _ ↦ True :=
  reads_word UInt16.toNat_lt (fun _ ↦ UInt16.toNat_ofNat_of_lt') (fun _ ↦ UInt16.ofNat_toNat) part

theorem reads_uint64 (part : Part) :
    Reads (uint64 part) (fun n ↦ Bytes.littleEndian 8 n.toNat) fun _ ↦ True :=
  reads_word UInt64.toNat_lt (fun _ ↦ UInt64.toNat_ofNat_of_lt') (fun _ ↦ UInt64.ofNat_toNat) part

/-! ## Strings and lists -/

theorem holds_iff {n : Nat} {bytes : Bytes} : holds n bytes = true ↔ n ≤ bytes.length := by
  cases n with
  | zero => exact iff_of_true rfl (Nat.zero_le _)
  | succ n =>
    have hempty : (bytes.drop n).isEmpty = true ↔ bytes.length ≤ n := by
      rw [List.isEmpty_iff, List.drop_eq_nil_iff]
    change (!(bytes.drop n).isEmpty) = true ↔ n < bytes.length
    rw [Bool.not_eq_true', ← Bool.not_eq_true, hempty, Nat.not_le]

theorem run_count_eq_ok_iff {least n : Nat} {part : Part} :
    (count least part).run start = .ok (n, after)
      ↔ (n < 2 ^ 32 ∧ start.Passes (encodeCount n) after) ∧ n * least ≤ after.rest.length := by
  simp only [count, run_bind_eq_ok_iff, run_get_eq_ok_iff, reads_number _ _ _ _ _]
  constructor
  · rintro ⟨_, _, ⟨rfl, rfl⟩, found, _, ⟨hlt, hpasses⟩, _, _, ⟨rfl, rfl⟩, h⟩
    split at h
    · rename_i hholds
      obtain ⟨rfl, rfl⟩ := run_pure_eq_ok_iff.mp h
      exact ⟨⟨hlt, hpasses⟩, holds_iff.mp hholds⟩
    · exact absurd h (run_throw_ne_ok _ _)
  · rintro ⟨⟨hlt, hpasses⟩, hholds⟩
    refine ⟨start, start, ⟨rfl, rfl⟩, n, after, ⟨hlt, hpasses⟩, after, after, ⟨rfl, rfl⟩, ?_⟩
    rw [if_pos (holds_iff.mpr hholds)]
    exact run_pure_eq_ok_iff.mpr ⟨rfl, rfl⟩

/-- A byte string behind its length. -/
def string (part : Part) : Reader Bytes := do
  let length ← count 1 part
  let bytes ← take length part
  return bytes.toList

/-- Items behind their number. -/
def list (least : Nat) (part : Part) (item : Nat → Reader α) : Reader (Array α) := do
  let n ← count least part
  items item n #[]

theorem reads_string (part : Part) :
    Reads (string part) (fun bytes ↦ encodeCount bytes.length ++ bytes)
      fun bytes ↦ bytes.length < 2 ^ 32 := by
  intro start bytes after
  simp only [string, run_bind_eq_ok_iff, run_pure_eq_ok_iff, run_count_eq_ok_iff,
    reads_take _ _ _ _ _, true_and, Cursor.passes_append_iff]
  constructor
  · rintro ⟨n, middle, ⟨⟨hlt, hcount⟩, -⟩, taken, _, hpasses, rfl, rfl⟩
    rw [Vector.length_toList]
    exact ⟨hlt, middle, hcount, hpasses⟩
  · rintro ⟨hlt, middle, hcount, hpasses⟩
    have hroom : bytes.length * 1 ≤ middle.rest.length := by
      rw [Nat.mul_one]
      exact hpasses.length_le
    exact ⟨bytes.length, middle, ⟨⟨hlt, hcount⟩, hroom⟩, ⟨bytes.toArray, rfl⟩, after, hpasses, rfl,
      rfl⟩

theorem run_items_eq_ok_iff {item : Nat → Reader α} {layout : α → Bytes} {Fits : α → Prop}
    (h : ∀ index, Reads (item index) layout Fits) {n : Nat} {read all : Array α} :
    (items item n read).run start = .ok (all, after)
      ↔ ∃ next : List α, all = read ++ next ∧ next.length = n ∧ (∀ a ∈ next, Fits a)
        ∧ start.Passes (next.flatMap layout) after := by
  induction n generalizing read start with
  | zero =>
    rw [items, run_pure_eq_ok_iff]
    constructor
    · rintro ⟨rfl, rfl⟩
      exact ⟨[], by simp⟩
    · rintro ⟨next, rfl, hlength, -, hpasses⟩
      obtain rfl := List.length_eq_zero_iff.mp hlength
      exact ⟨by simp, Cursor.passes_nil_iff.mp hpasses⟩
  | succ n ih =>
    simp only [items, run_bind_eq_ok_iff, h _ _ _ _, ih]
    constructor
    · rintro ⟨a, middle, ⟨hfits, hpasses⟩, next, rfl, rfl, hnext, hrest⟩
      refine ⟨a :: next, by simp, rfl, List.forall_mem_cons.mpr ⟨hfits, hnext⟩, ?_⟩
      exact Cursor.passes_append_iff.mpr ⟨middle, hpasses, hrest⟩
    · rintro ⟨next, rfl, hlength, hfits, hpasses⟩
      obtain ⟨a, next, rfl⟩ := List.exists_cons_of_length_eq_add_one hlength
      obtain ⟨hfits, hnext⟩ := List.forall_mem_cons.mp hfits
      obtain ⟨middle, hpasses, hrest⟩ := Cursor.passes_append_iff.mp hpasses
      exact ⟨a, middle, ⟨hfits, hpasses⟩, next, by simp, by simpa using hlength, hnext, hrest⟩

/-- Items of at least `least` bytes each are together long enough for the check of their count. -/
theorem length_mul_le_length_flatMap {layout : α → Bytes} {least : Nat}
    (h : ∀ a, least ≤ (layout a).length) (all : List α) :
    all.length * least ≤ (all.flatMap layout).length := by
  induction all with
  | nil => simp
  | cons a all ih =>
    have ha := h a
    rw [List.flatMap_cons, List.length_append, List.length_cons, Nat.succ_mul]
    omega

theorem reads_list {item : Nat → Reader α} {layout : α → Bytes} {Fits : α → Prop} {least : Nat}
    (h : ∀ index, Reads (item index) layout Fits) (hleast : ∀ a, least ≤ (layout a).length)
    (part : Part) :
    Reads (list least part item) (fun all ↦ encodeCount all.size ++ all.toList.flatMap layout)
      fun all ↦ all.size < 2 ^ 32 ∧ ∀ a ∈ all, Fits a := by
  intro start all after
  simp only [list, run_bind_eq_ok_iff, run_count_eq_ok_iff, run_items_eq_ok_iff h,
    Cursor.passes_append_iff]
  constructor
  · rintro ⟨n, middle, ⟨⟨hlt, hcount⟩, -⟩, next, rfl, rfl, hfits, hpasses⟩
    simpa using ⟨⟨hlt, hfits⟩, middle, hcount, hpasses⟩
  · rintro ⟨⟨hlt, hfits⟩, middle, hcount, hpasses⟩
    have hroom : all.size * least ≤ middle.rest.length :=
      (length_mul_le_length_flatMap hleast all.toList).trans hpasses.length_le
    exact ⟨all.size, middle, ⟨⟨hlt, hcount⟩, hroom⟩, all.toList, by simp, rfl, by simpa using hfits,
      hpasses⟩

end Reader

end Bytecode.Chunk
