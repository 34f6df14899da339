import Bytecode.Embedding.Script

/-!
# Transcripts

A session is watched by leaving notes in the journal: when the body of a host function begins and
ends, when a listener is told of a failure, and after every step, with what was observed there. A
transcript is the journal read back as a list of records, one for each observation, in the order in
which the steps were completed. A body may ask for quiet: its observations, and those of everything
it calls, are left out, while what listeners hear and what is logged meanwhile goes to the next
record.
-/

namespace Bytecode

/-- A note about a session. `α` is the type of what is observed. -/
inductive Note (α : Type) where
  /-- The body of a host function begins. -/
  | opened (quiet : Bool)
  /-- The body of a host function is over. -/
  | closed
  /-- A listener was told of a failure. -/
  | told (listener : α) (message : String)
  /-- A step is complete. -/
  | observed (what : α)

/-- What a listener notes. -/
def Note.listener {α : Type} (id : α) : Listener (Note α) := fun message ↦ .told id message

/-- A host function whose steps are watched. -/
def Script.watched {α : Type} (script : Script (Note α)) (quiet : Bool) : HostProgram (Note α) :=
  Host.program do
    Host.note (.opened quiet)
    let status ← script.run
    Host.note .closed
    return status

/-- An observation with what went before it. -/
structure Record (α : Type) where
  /-- How many bodies of host functions the step is nested in. -/
  depth : Nat
  what : α
  /-- What listeners heard since the record before. -/
  heard : List (α × String)
  /-- What was logged since the record before. -/
  logged : List LogEntry

/-- A journal while it is read. -/
structure Transcript (α : Type) where
  records : Array (Record α) := #[]
  /-- For each open body, whether it asked for quiet, the innermost first. -/
  bodies : List Bool := []
  heard : Array (α × String) := #[]
  logged : Array LogEntry := #[]

namespace Transcript

variable {α : Type}

/-- Read one event. -/
def read (t : Transcript α) : Event (Note α) → Transcript α
  | .logged entry => { t with logged := t.logged.push entry }
  | .heard (.told listener message) | .noted (.told listener message) =>
    { t with heard := t.heard.push (listener, message) }
  | .heard (.opened quiet) | .noted (.opened quiet) => { t with bodies := quiet :: t.bodies }
  | .heard .closed | .noted .closed => { t with bodies := t.bodies.tail }
  | .heard (.observed what) | .noted (.observed what) =>
    if t.bodies.any id then t
    else
      { t with
        records := t.records.push ⟨t.bodies.length, what, t.heard.toList, t.logged.toList⟩
        heard := #[]
        logged := #[] }

/-- The records of a journal. -/
def ofJournal (journal : Array (Event (Note α))) : List (Record α) :=
  (journal.foldl read {}).records.toList

end Transcript

end Bytecode
