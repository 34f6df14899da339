import Bytecode.Proofs.Separate.Basic
import Bytecode.Proofs.Stack

/-!
# Host operations see the window alone

An operation of host code has the same answer and does the same to the window and to the shared part
of the world, whatever values lie below the window and however many calls are live. For an operation
that changes something this is said by naming the answer, the shared part and the window it leads
to, before the values below and the depth are given.
-/

namespace Bytecode.Separate

variable {ν : Type}

theorem Shared.seen_eq (s : Shared ν) (window : List Value) :
    s.seen window = s.world (.windowed [] window) 0 := rfl

theorem answer_windowed (s : Shared ν) (below window : List Value) (depth : Nat) (query : Query) :
    query.answer (s.world (.windowed below window) depth) = query.answer (s.seen window) := by
  rw [Shared.seen_eq]
  cases query with
  | height =>
    change (Stack.windowed below window).height = (Stack.windowed [] window).height
    rw [Stack.height_windowed, Stack.height_windowed]
  | value index =>
    change (Stack.windowed below window).get? index = (Stack.windowed [] window).get? index
    rw [Stack.get?_windowed, Stack.get?_windowed]
  | _ => rfl

theorem dispatch_windowed (s : Shared ν) (below window : List Value) (depth : Nat) (name : String)
    (arguments : Nat) :
    (s.world (.windowed below window) depth).machine.dispatch name arguments
      = (s.seen window).machine.dispatch name arguments := by
  simp only [Shared.seen_eq, Machine.dispatch, Shared.stack_world, Shared.hosts_world,
    Shared.chunk_world, Stack.height_windowed]

/-- A call that finds a function has enough arguments for it, and no more than the function takes. A
bytecode function is one of the loaded chunk. -/
theorem dispatch_ok {m : Machine ν} {name : String} {arguments : Nat} {callee : Callee ν}
    (h : m.dispatch name arguments = .ok callee) :
    arguments ≤ m.stack.height ∧
      match callee with
      | .host function => function.arity = arguments
      | .code chunk index =>
        m.chunk = some chunk ∧ index < chunk.functions.size ∧
          chunk.functionArity index = arguments := by
  rw [Machine.dispatch] at h
  split at h
  · cases h
  split at h
  · cases h
  rename_i hheight
  refine ⟨Nat.le_of_not_lt hheight, ?_⟩
  split at h
  · split at h
    · cases h
      assumption
    · cases h
  · split at h
    · cases h
    · rename_i hchunk
      split at h
      · cases h
      · rename_i hindex
        split at h
        · cases h
          rename_i harity
          exact ⟨hchunk, Array.findIdx?_eq_some_iff_getElem.mp hindex |>.1, harity⟩
        · cases h

/-- A call that finds no function fails by neither a trap nor a host function's own status. -/
theorem dispatch_error {m : Machine ν} {name : String} {arguments : Nat} {failure : Failure}
    (h : m.dispatch name arguments = .error failure) :
    (∀ trap, failure ≠ .trapped trap) ∧ ∀ host status, failure ≠ .hostFailed host status := by
  rw [Machine.dispatch] at h
  split at h
  · cases h
    exact ⟨by simp, by simp⟩
  split at h
  · cases h
    exact ⟨by simp, by simp⟩
  split at h
  · split at h
    · cases h
    · cases h
      exact ⟨by simp, by simp⟩
  · split at h
    · cases h
      exact ⟨by simp, by simp⟩
    · split at h
      · cases h
        exact ⟨by simp, by simp⟩
      · split at h
        · cases h
        · cases h
          exact ⟨by simp, by simp⟩

/-! ## Operations that change something -/

/-- In this state the operation leads to the same answer, shared part and window, whatever lies
below. -/
def LocalAt (operation : World ν → Reply × World ν) (s : Shared ν) (window : List Value) : Prop :=
  ∃ (reply : Reply) (s' : Shared ν) (window' : List Value), ∀ (below : List Value) (depth : Nat),
    operation (s.world (.windowed below window) depth)
      = (reply, s'.world (.windowed below window') depth)

variable {s : Shared ν} {window : List Value} {operation : World ν → Reply × World ν}

/-- An operation that only fails. -/
theorem LocalAt.fail (failure : Failure)
    (h : ∀ below depth, operation (s.world (.windowed below window) depth)
      = (s.world (.windowed below window) depth).fail failure) : LocalAt operation s window :=
  ⟨.error failure, s.fail failure, window, h⟩

theorem LocalAt.updateStack {f : Stack → Stack} (window' : List Value)
    (h : ∀ below, f (.windowed below window) = .windowed below window') :
    LocalAt (fun w ↦ (.ok (), w.updateStack f)) s window := by
  refine ⟨.ok (), s, window', fun below depth ↦ ?_⟩
  rw [← h]
  rfl

theorem localAt_setGlobal (name : String) : LocalAt (fun w ↦ w.setGlobal name) s window := by
  by_cases hname : name = ""
  · exact .fail (.emptyName .global) fun below depth ↦ by simp only [World.setGlobal, if_pos hname]
  · rcases List.eq_nil_or_concat window with rfl | ⟨rest, value, rfl⟩
    · refine .fail .emptyStack fun below depth ↦ ?_
      simp only [World.setGlobal, if_neg hname, Shared.stack_world, Stack.takeTop_windowed_nil]
    · refine ⟨.ok (), { s with globals := s.globals.set (Text.Utf8.encode name) value }, rest,
        fun below depth ↦ ?_⟩
      simp only [World.setGlobal, if_neg hname, Shared.stack_world, List.concat_eq_append,
        Stack.takeTop_windowed_concat]
      rfl

theorem localAt_getGlobal (name : String) : LocalAt (fun w ↦ w.getGlobal name) s window := by
  by_cases hname : name = ""
  · exact .fail (.emptyName .global) fun below depth ↦ by simp only [World.getGlobal, if_pos hname]
  · cases hget : s.globals.get? (Text.Utf8.encode name) with
    | none =>
      refine .fail (.globalNotFound name) fun below depth ↦ ?_
      simp only [World.getGlobal, if_neg hname, Shared.globals_world, hget]
    | some value =>
      refine ⟨.ok (), s, window ++ [value], fun below depth ↦ ?_⟩
      simp only [World.getGlobal, if_neg hname, Shared.globals_world, hget]
      rw [← Stack.push_windowed]
      rfl

theorem localAt_load (bytes : Bytes) : LocalAt (fun w ↦ w.load bytes) s window := by
  cases hadmit : Machine.admit bytes with
  | error failure => exact .fail failure fun below depth ↦ by simp only [World.load, hadmit]
  | ok chunk =>
    refine ⟨.ok (), .ofWorld ((s.seen window).install chunk), window, fun below depth ↦ ?_⟩
    simp only [World.load, hadmit]
    rfl

theorem localAt_loadFile (path : Bytes) : LocalAt (fun w ↦ w.loadFile path) s window := by
  cases hload : s.files.load path with
  | error cause =>
    refine .fail (.cannotRead path cause) fun below depth ↦ ?_
    simp only [World.loadFile, Shared.files_world, hload]
  | ok bytes =>
    obtain ⟨reply, s', window', h⟩ := @localAt_load ν s window bytes
    refine ⟨reply, s', window', fun below depth ↦ ?_⟩
    simp only [World.loadFile, Shared.files_world, hload, h below depth]

theorem localAt_saveFile (path : Bytes) : LocalAt (fun w ↦ w.saveFile path) s window := by
  cases hchunk : s.chunk with
  | none =>
    refine .fail .noChunk fun below depth ↦ ?_
    simp only [World.saveFile, Shared.chunk_world, hchunk]
  | some chunk =>
    rcases hstore : s.files.store path chunk.encode with ⟨cause | _, files⟩
    · refine ⟨.error (.cannotWrite path cause),
        Shared.fail { s with files } (.cannotWrite path cause), window, fun below depth ↦ ?_⟩
      simp only [World.saveFile, Shared.chunk_world, hchunk, Shared.files_world, hstore]
      rw [← hchunk]
      rfl
    · refine ⟨.ok (), { s with files }, window, fun below depth ↦ ?_⟩
      simp only [World.saveFile, Shared.chunk_world, hchunk, Shared.files_world, hstore]
      rw [← hchunk]
      rfl

theorem localAt_register (name : String) (function : HostFunction ν) :
    LocalAt (fun w ↦ w.register name function) s window := by
  by_cases hname : name = ""
  · exact .fail (.emptyName .function) fun below depth ↦ by simp only [World.register, if_pos hname]
  · refine ⟨.ok (), .ofWorld ((s.seen window).register name function).2, window,
      fun below depth ↦ ?_⟩
    simp only [World.register, if_neg hname]
    rfl

/-- Every command sees the window alone. -/
theorem localAt_perform (command : Command ν) :
    LocalAt (fun w ↦ command.perform w) s window := by
  cases command with
  | push value => exact .updateStack _ fun below ↦ Stack.push_windowed below window value
  | pop count => exact .updateStack _ fun below ↦ Stack.pop_windowed below window count
  | setTop height => exact .updateStack _ fun below ↦ Stack.setTop_windowed below window height
  | setGlobal name => exact localAt_setGlobal name
  | getGlobal name => exact localAt_getGlobal name
  | load bytes => exact localAt_load bytes
  | loadFile path => exact localAt_loadFile path
  | saveFile path => exact localAt_saveFile path
  | clearError => exact ⟨.ok (), { s with errors := s.errors.clear }, window, fun _ _ ↦ rfl⟩
  | raise status message =>
    exact ⟨.ok (), .ofWorld ((s.seen window).raise status message), window, fun _ _ ↦ rfl⟩
  | setListener listener =>
    exact ⟨.ok (), { s with errors := s.errors.setListener listener }, window, fun _ _ ↦ rfl⟩
  | setLimits limits => exact ⟨.ok (), { s with limits }, window, fun _ _ ↦ rfl⟩
  | writeFile path bytes =>
    exact ⟨.ok (), { s with files := (s.files.store path bytes).2 }, window, fun _ _ ↦ rfl⟩

end Bytecode.Separate
