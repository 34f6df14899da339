import Bytecode.Machine.Files
import Bytecode.Proofs.Layout

/-!
# Reading back what was written

Nothing is assumed of file systems in general. What holds only if a file is read as it was written
says so by `Files.ReadsBack`, for the path of that file.

A tree reads back whatever it takes, through every path, absolute or not, and whatever was written
before (`FileTree.readsBack`). Writing changes the contents of one location and no directory, so a
path that could be followed before is followed to the same place afterwards.
-/

namespace Bytecode

/-- What is written to the path now, if it can be written, is read from there right afterwards. -/
def Files.ReadsBack (files : Files) (path : Bytes) : Prop :=
  ∀ bytes, (files.store path bytes).1 = .ok () → (files.store path bytes).2.load path = .ok bytes

namespace FileTree

variable {tree : FileTree} {place : Location} {bytes : Bytes}

/-- The tree after new contents were put at a location. -/
def write (tree : FileTree) (place : Location) (bytes : Bytes) : FileTree :=
  { tree with contents := (place, bytes) :: tree.contents }

theorem contents?_write_self (tree : FileTree) (place : Location) (bytes : Bytes) :
    (tree.write place bytes).contents? place = some bytes := by
  rw [contents?, write, List.lookup_cons_self]

theorem isDirectory_write (tree : FileTree) (place location : Location) (bytes : Bytes) :
    (tree.write place bytes).isDirectory location = tree.isDirectory location := rfl

/-! ## Following a path -/

/-- Only directories are entered, and writing a file makes none and removes none. -/
theorem enter_write {directory found : Location} {name : Bytes}
    (h : tree.enter directory name = .ok found) :
    (tree.write place bytes).enter directory name = .ok found := by
  unfold enter at h ⊢
  rw [isDirectory_write]
  by_cases hstay : name = [0x2E]
  · rw [if_pos hstay] at h ⊢
    exact h
  rw [if_neg hstay] at h ⊢
  by_cases hup : name = [0x2E, 0x2E]
  · rw [if_pos hup] at h ⊢
    exact h
  rw [if_neg hup] at h ⊢
  by_cases hlong : maxName < name.length
  · rw [if_pos hlong] at h
    cases h
  rw [if_neg hlong] at h ⊢
  by_cases hinner : tree.isDirectory (directory ++ [name])
  · rw [if_pos hinner] at h ⊢
    exact h
  · rw [if_neg hinner] at h
    split at h <;> cases h

theorem foldlM_enter_write {names : List Bytes} {directory found : Location}
    (h : names.foldlM tree.enter directory = .ok found) :
    names.foldlM (tree.write place bytes).enter directory = .ok found := by
  induction names generalizing directory with
  | nil => exact h
  | cons name names ih =>
    rw [List.foldlM_cons] at h ⊢
    rcases hname : tree.enter directory name with cause | inner
    · rw [hname] at h
      cases h
    · rw [hname] at h
      rw [enter_write hname]
      exact ih h

/-- A check made before going on. -/
theorem check_eq_ok_iff {α : Type} {p : Prop} [Decidable p] {cause : FileError}
    {next : Unit → Except FileError α} {a : α} :
    (if p then throw cause >>= next else next ()) = .ok a ↔ ¬p ∧ next () = .ok a := by
  by_cases hp : p
  · rw [if_pos hp]
    refine ⟨fun h ↦ ?_, fun h ↦ absurd hp h.1⟩
    cases h
  · rw [if_neg hp]
    exact ⟨fun h ↦ ⟨hp, h⟩, fun h ↦ h.2⟩

/-- A path that could be followed is followed to the same place after a file was written. -/
theorem locate_write {path : Bytes} {target : Target} (h : tree.locate path = .ok target) :
    (tree.write place bytes).locate path = .ok target := by
  unfold locate at h ⊢
  dsimp only at h ⊢
  rw [check_eq_ok_iff, check_eq_ok_iff, check_eq_ok_iff, bind_eq_ok_iff] at h ⊢
  obtain ⟨hzero, hlong, hempty, directory, hdirectory, htarget⟩ := h
  exact ⟨hzero, hlong, hempty, directory, foldlM_enter_write hdirectory, htarget⟩

/-! ## Writing and reading -/

/-- A file that can be written is put where its path leads. -/
theorem exists_target_of_store {path : Bytes} {tree' : FileTree}
    (h : tree.store path bytes = .ok tree') :
    ∃ directory name, tree.locate path = .ok (.entry directory name false) ∧
      ¬maxName < name.length ∧ tree' = tree.write (directory ++ [name]) bytes := by
  unfold store at h
  rw [bind_eq_ok_iff] at h
  obtain ⟨target, htarget, h⟩ := h
  rcases target with _ | ⟨directory, name, slashed⟩
  · cases h
  dsimp only at h
  rw [check_eq_ok_iff, check_eq_ok_iff] at h
  obtain ⟨hslashed, hlong, h⟩ := h
  cases h
  rw [Bool.not_eq_true] at hslashed
  rw [hslashed] at htarget
  exact ⟨directory, name, htarget, hlong, rfl⟩

/-- What was written is read back. -/
theorem load_of_store {path : Bytes} {tree' : FileTree} (h : tree.store path bytes = .ok tree') :
    tree'.load path = .ok bytes := by
  obtain ⟨directory, name, htarget, hlong, rfl⟩ := exists_target_of_store h
  unfold load
  rw [bind_eq_ok_iff]
  refine ⟨_, locate_write htarget, ?_⟩
  dsimp only
  rw [check_eq_ok_iff, contents?_write_self]
  exact ⟨hlong, rfl⟩

theorem after_cons_of_store {path : Bytes} {written : Writes} {tree' : FileTree}
    (h : (tree.after written).store path bytes = .ok tree') :
    tree.after ((path, bytes) :: written) = tree' := by
  rw [after, h]
  rfl

/-- Whatever has been written to a tree, every path reads back what it takes. -/
theorem readsBack (tree : FileTree) (written : Writes) (path : Bytes) :
    Files.ReadsBack ⟨tree.system, written⟩ path := by
  intro bytes hok
  change ((tree.after written).store path bytes).map _ = .ok () at hok
  change (tree.after ((path, bytes) :: written)).load path = .ok bytes
  cases hstore : (tree.after written).store path bytes with
  | error cause =>
    rw [hstore] at hok
    cases hok
  | ok tree' =>
    rw [after_cons_of_store hstore]
    exact load_of_store hstore

end FileTree

end Bytecode
