import Bytecode.Proofs.Chunk.Bijection
import Bytecode.Proofs.Files
import Bytecode.Proofs.History
import Bytecode.Proofs.LoadGate

/-!
# Saving and loading again

The binary form of a chunk is the only one it has, so the loaded chunk determines the bytes it was
loaded from, and nobody has to keep them: encoding the chunk gives them back. Which bytes those are
is read off the history of the session. They are the last ones that a load, from memory or from a
file, has accepted (`Config.History.installs`), and everything else that has happened since left the
loaded chunk alone.

So saving writes just the bytes that were loaded, and whichever machine loads them again comes to
the same chunk. The file system may be any; that a path reads back what was written to it is assumed
only where the file is loaded again.
-/

namespace Bytecode

open Separate

variable {ν : Type}

/-- Bytes that decode to a chunk are its binary form. -/
theorem Chunk.encode_of_decode {bytes : Bytes} {chunk : Chunk} (h : decode bytes = .ok chunk) :
    chunk.encode = bytes := by
  simp only [decode, bind_eq_ok_iff, Prod.exists] at h
  obtain ⟨_, middle, hheader, _, after, hbody, hpure⟩ := h
  cases hpure
  obtain ⟨-, hpasses, hnil⟩ := Reader.run_body_eq_ok_iff.mp hbody
  have hrest : middle.rest = chunk.encodeBody := by
    rw [hpasses.rest, hnil, List.append_nil]
  have hbytes := (Reader.run_header_eq_ok_iff.mp hheader).rest
  rw [hrest] at hbytes
  exact hbytes.symm

/-! ## Where the loaded chunk comes from -/

/-- The bytes that a command loads if it succeeds. -/
def Command.source? (files : Files) : Command ν → Option Bytes
  | .load bytes => some bytes
  | .loadFile path => (files.load path).toOption
  | .push _ | .pop _ | .setTop _ | .setGlobal _ | .getGlobal _ | .saveFile _ | .clearError
  | .raise _ _ | .setListener _ | .setLimits _ | .writeFile _ _ => none

/-- The bytes from which the next step loads a chunk, if it loads one. -/
def Config.installs? (c : Config ν) : Option Bytes :=
  match c.control with
  | .host (.act command _) =>
    if (command.perform c.world).1 = .ok () then command.source? c.world.files else none
  | _ => none

/-- What becomes of the loaded chunk if this is loaded, or nothing is. -/
def Installs (before : Option Chunk) : Option Bytes → Option Chunk → Prop
  | none, after => after = before
  | some bytes, after => ∃ chunk, Loadable bytes chunk ∧ after = some chunk

/-- A load, or none, after all those before. -/
theorem Installs.append {loads : List Bytes} {source : Option Bytes} {before after : Option Chunk}
    (hbefore : Installs none loads.getLast? before) (h : Installs before source after) :
    Installs none (loads ++ source.toList).getLast? after := by
  cases source with
  | none =>
    rw [Option.toList_none, List.append_nil, show after = before from h]
    exact hbefore
  | some bytes =>
    rw [Option.toList_some, List.getLast?_concat]
    exact h

theorem World.installs_load (w : World ν) (bytes : Bytes) :
    Installs w.machine.chunk (if (w.load bytes).1 = .ok () then some bytes else none)
      (w.load bytes).2.machine.chunk := by
  have hloads := w.loads bytes
  by_cases hok : (w.load bytes).1 = .ok ()
  · obtain ⟨chunk, hchunk⟩ := hloads.reply_ok_iff.mp hok
    rw [if_pos hok, (hloads.loaded hchunk).1]
    exact ⟨chunk, hchunk, rfl⟩
  · rw [if_neg hok]
    have hnot : ¬∃ chunk, Loadable bytes chunk := fun h ↦ hok (hloads.reply_ok_iff.mpr h)
    obtain ⟨failure, hfail⟩ := w.load_of_not_loadable hnot
    rw [hfail]
    rfl

/-- A command that loads nothing leaves the loaded chunk alone. -/
theorem Command.chunk_perform {command : Command ν} {w : World ν}
    (h : command.source? w.files = none) :
    (command.perform w).2.machine.chunk = w.machine.chunk := by
  cases command with
  | load bytes => cases h
  | loadFile path =>
    rw [perform, World.loadFile]
    cases hload : w.files.load path with
    | error cause => rfl
    | ok bytes =>
      rw [source?, hload] at h
      cases h
  | _ => exact (leaves_perform _ w).chunk (by simp) (by simp)

theorem Command.installs_perform (command : Command ν) (w : World ν) :
    Installs w.machine.chunk
      (if (command.perform w).1 = .ok () then command.source? w.files else none)
      (command.perform w).2.machine.chunk := by
  cases hsource : command.source? w.files with
  | none =>
    rw [ite_self]
    exact chunk_perform hsource
  | some bytes =>
    have hperform : command.perform w = w.load bytes := by
      cases command with
      | load given =>
        cases hsource
        rfl
      | loadFile path =>
        rw [perform, World.loadFile]
        cases hload : w.files.load path with
        | error cause =>
          rw [source?, hload] at hsource
          cases hsource
        | ok found =>
          rw [source?, hload] at hsource
          cases hsource
          rfl
      | _ => cases hsource
    rw [hperform]
    exact w.installs_load bytes

theorem World.chunk_register (w : World ν) (name : String) (function : HostFunction ν) :
    (w.register name function).2.machine.chunk = w.machine.chunk := by
  rw [register]
  split <;> rfl

namespace Config

variable {c : Config ν}

/-- Bytecode never loads a chunk, and host code only by a command. -/
theorem installs_step (h : c.Reachable) :
    Installs c.world.machine.chunk c.installs? c.step.world.machine.chunk := by
  obtain ⟨own, rfl, -⟩ := exists_onto_of_reachable RunProperty.anything_kept h
  have hnext := (own.step (.nothing : Outside ν).toGround).ofWorld_onto
  rw [← step_onto] at hnext
  replace hnext := congrArg Shared.chunk hnext
  obtain ⟨s, control⟩ := own
  cases control with
  | code run waiting => exact hnext.trans (chunk_ofTurn s waiting _)
  | host window program waiting =>
    cases program with
    | act command next => exact command.installs_perform _
    | register name arity body next => exact World.chunk_register _ name ⟨arity, body⟩
    | done status =>
      exact hnext.trans (Shared.chunk_of_lasting (lasting_done s status window waiting))
    | call name arguments next =>
      exact hnext.trans
        (Shared.chunk_of_lasting (lasting_call _ s window waiting name arguments next))
    | ask query next => rfl
    | note note next => rfl

/-- The loaded chunk is that of the last bytes loaded; before the first load there is none. -/
theorem History.installs {loads : List Bytes} (h : c.History installs? loads) :
    Installs none loads.getLast? c.world.machine.chunk := by
  refine h.induction_machine (P := fun loads m ↦ Installs none loads.getLast? m.chunk) ?_ ?_
  · intro limits
    rfl
  · intro loads c hreach hloads
    exact hloads.append (installs_step hreach)

end Config

/-! ## Saving and loading again -/

/-- Saving writes the binary form of the loaded chunk and changes nothing else. -/
theorem World.saveFile_eq_ok_iff {w w' : World ν} {chunk : Chunk} {path : Bytes}
    (hchunk : w.machine.chunk = some chunk) :
    w.saveFile path = (.ok (), w') ↔
      w.files.store path chunk.encode = (.ok (), w'.files) ∧ w' = { w with files := w'.files } := by
  rw [saveFile, hchunk]
  dsimp only
  rcases w.files.store path chunk.encode with ⟨cause | _, files⟩
  · constructor
    · intro h
      cases h
    · rintro ⟨h, -⟩
      cases h
  · constructor
    · intro h
      cases h
      exact ⟨rfl, rfl⟩
    · rintro ⟨h, hkept⟩
      cases h
      exact congrArg (Prod.mk _) hkept.symm

theorem World.loadFile_of_loadable {w : World ν} {path bytes : Bytes} {chunk : Chunk}
    (hload : w.files.load path = .ok bytes) (hloadable : Loadable bytes chunk) :
    w.loadFile path = (.ok (), w.install chunk) := by
  rw [loadFile, hload]
  exact w.load_of_loadable hloadable

/-- The loaded chunk comes from the last bytes that the session has loaded. Saving the chunk
succeeds just if those very bytes can be written, and does nothing but write them. Where the file
system reads back what was written, whichever machine loads the file while it still holds them
succeeds, has the same chunk afterwards, and is otherwise as it was. -/
theorem saving_and_reloading_is_lossless {c : Config ν} {chunk : Chunk} (hreach : c.Reachable)
    (hchunk : c.world.machine.chunk = some chunk) :
    (∃ loads, c.History Config.installs? loads) ∧
    ∀ loads, c.History Config.installs? loads → ∃ bytes, loads.getLast? = some bytes ∧
      ∀ path w',
        ((Host.saveFile path).Returns c.world (.ok ()) w' ↔
          c.world.files.store path bytes = (.ok (), w'.files) ∧
          w' = { c.world with files := w'.files }) ∧
        ((Host.saveFile path).Returns c.world (.ok ()) w' → c.world.files.ReadsBack path →
          w'.files.load path = .ok bytes ∧
          ∀ v : World ν, v.files.load path = w'.files.load path →
            ∃ v', (Host.loadFile path).Returns v (.ok ()) v' ∧
              v'.machine = { v.machine with chunk := some chunk } ∧ v'.files = v.files ∧
              heard v'.journal = heard v.journal) := by
  refine ⟨hreach.exists_history Config.installs?, fun loads hloads ↦ ?_⟩
  have hinstalls := hloads.installs
  cases hlast : loads.getLast? with
  | none =>
    rw [hlast, hchunk] at hinstalls
    cases hinstalls
  | some bytes =>
    rw [hlast, hchunk] at hinstalls
    obtain ⟨loaded, hloadable, hsame⟩ := hinstalls
    cases hsame
    refine ⟨bytes, rfl, fun path w' ↦ ?_⟩
    have hsaves : (Host.saveFile path).Returns c.world (.ok ()) w' ↔ _ :=
      Host.returns_act_iff.trans (World.saveFile_eq_ok_iff hchunk)
    -- The chunk has one binary form, so what is written are the bytes that were loaded.
    rw [Chunk.encode_of_decode hloadable.2.1] at hsaves
    refine ⟨hsaves, fun hsave hreads ↦ ?_⟩
    obtain ⟨hstore, -⟩ := hsaves.mp hsave
    have hback : w'.files.load path = .ok bytes := by
      have hread := hreads bytes
      rw [hstore] at hread
      exact hread rfl
    refine ⟨hback, fun v hfile ↦ ?_⟩
    have hperform := World.loadFile_of_loadable (hfile.trans hback) hloadable
    have hloaded := (v.loads bytes).loaded hloadable
    rw [v.load_of_loadable hloadable] at hloaded
    exact ⟨_, Host.returns_act_iff.mpr hperform, hloaded.1, rfl, hloaded.2⟩

/-- The chunk is saved through the absolute path `/a`, by the host function that it has called
itself, and loaded by a fresh machine. -/
theorem saving_and_reloading_is_lossless_answering :
    Answering.answering.Reachable ∧
      Answering.answering.world.machine.chunk = some Answering.chunk ∧
      Answering.answering.world.files.ReadsBack [0x2F, 0x61] ∧
      ∃ w', (Host.saveFile [0x2F, 0x61]).Returns Answering.answering.world (.ok ()) w' ∧
        w'.files.load [0x2F, 0x61] = .ok Answering.chunk.encode ∧
        ∃ v' : World Empty, (Host.loadFile [0x2F, 0x61]).Returns ⟨{}, w'.files, #[]⟩ (.ok ()) v' ∧
          v'.machine.chunk = some Answering.chunk := by
  have hreach := Answering.reachable_answering
  have hreads : Answering.answering.world.files.ReadsBack [0x2F, 0x61] :=
    FileTree.readsBack {} [] [0x2F, 0x61]
  have hsave : (Host.saveFile [0x2F, 0x61]).Returns Answering.answering.world (.ok ()) _ :=
    Host.returns_act Answering.answering.world (.saveFile [0x2F, 0x61])
  obtain ⟨⟨loads, hloads⟩, hall⟩ := saving_and_reloading_is_lossless hreach rfl
  obtain ⟨bytes, -, hbytes⟩ := hall loads hloads
  obtain ⟨-, hreload⟩ := (hbytes [0x2F, 0x61] _).2 hsave hreads
  obtain ⟨v', hload, hmachine, -⟩ := hreload ⟨{}, _, #[]⟩ rfl
  refine ⟨hreach, rfl, hreads, _, hsave, ?_, v', hload, ?_⟩
  · rfl
  · rw [hmachine]

end Bytecode
