import Bytecode.Embedding.Foreign
import Bytecode.Embedding.Transcript

/-!
# Sessions

Several machines that share a tree of files and are watched together. A machine may be released, and
its place is then a null handle.
-/

namespace Bytecode

/-- Machines with common files and one journal. What a step writes goes into the tree once the step
has ended. -/
structure Session (α : Type) where
  machines : Array (Option (Machine (Note α)))
  files : FileTree := {}
  journal : Array (Event (Note α)) := #[]

namespace Session

variable {α : Type}

/-- Perform a step through a null handle. -/
def performNull (session : Session α) (step : Foreign.Entry (Note α) α) : Session α :=
  let (what, files) := step.null.run session.files.files
  { session with
    files := session.files.after files.written
    journal := session.journal.push (.noted (.observed what)) }

/-- Perform a step on a machine, or through a null handle if its place is empty, and note what is
observed. The answer is `none` if host code and bytecode take more than `steps` steps. -/
def perform (session : Session α) (steps place : Nat) (step : Foreign.Entry (Note α) α) :
    Option (Session α) :=
  match session with
  | ⟨machines, tree, journal⟩ =>
    match machines[place]? with
    | some (some machine) =>
      let machines := machines.setIfInBounds place none
      let program := Host.program do
        let what ← step.live
        Host.note (.observed what)
        return .ok
      match (Config.start ⟨machine, tree.files, journal⟩ program).run steps with
      | none => none
      | some (_, ⟨machine, files, journal⟩) =>
        some ⟨machines.setIfInBounds place (some machine), tree.after files.written, journal⟩
    | _ => some (performNull ⟨machines, tree, journal⟩ step)

/-- Put a machine, or none, into a place. -/
def replace (session : Session α) (place : Nat) (machine : Option (Machine (Note α))) :
    Session α :=
  { session with machines := session.machines.setIfInBounds place machine }

/-- The records of a session. -/
def transcript (session : Session α) : List (Record α) :=
  Transcript.ofJournal session.journal

end Session

end Bytecode
