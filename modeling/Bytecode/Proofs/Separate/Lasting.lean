import Bytecode.Proofs.Happenings
import Bytecode.Proofs.Separate.Lockstep

/-!
# What lasts

Of what the parts of the machine share, globals, registered functions, the loaded chunk, limits and
files last from step to step. Calls, returns and traps touch only the error state and the journal.
Bytecode changes nothing but globals.
-/

namespace Bytecode.Separate

variable {ν : Type} {b : Awaited}

def Progress.shared : Progress ν b → Shared ν
  | .more c => c.shared
  | .ended s _ => s

/-- What is shared, without the error state and the journal. -/
def Shared.lasting (s : Shared ν) : Shared ν :=
  { s with errors := {}, journal := #[] }

theorem Shared.chunk_of_lasting {s s' : Shared ν} (h : s'.lasting = s.lasting) :
    s'.chunk = s.chunk :=
  congrArg (·.chunk) h

theorem Shared.globals_of_lasting {s s' : Shared ν} (h : s'.lasting = s.lasting) :
    s'.globals = s.globals :=
  congrArg (·.globals) h

/-- The globals after an instruction. -/
def Turn.globals (before : Globals) : Turn ν → Globals
  | .goes _ after => after
  | .calls _ _ _ _ | .ends _ => before

theorem globals_accept (s : Shared ν) (run : Run) (name : String) (status : Status)
    (results : List Value) : (run.accept s name status results).globals s.globals = s.globals := by
  unfold Run.accept
  split
  · rfl
  · split <;> rfl

/-! ## Passing control on -/

theorem lasting_finish (s : Shared ν) (outcome : Outcome) (waiting : Waiting ν b .code) :
    (Progress.finish s outcome waiting).shared.lasting = s.lasting := by
  cases waiting with
  | outside => rfl
  | entry caller rest => cases outcome <;> rfl

theorem lasting_ofTurn (s : Shared ν) (waiting : Waiting ν b .code) (turn : Turn ν) :
    (Progress.ofTurn s waiting turn).shared.lasting
      = ({ s with globals := turn.globals s.globals } : Shared ν).lasting := by
  cases turn with
  | goes run globals => rfl
  | calls name function arguments run => rfl
  | ends outcome => exact lasting_finish s outcome waiting

/-- Bytecode does not load chunks. -/
theorem chunk_ofTurn (s : Shared ν) (waiting : Waiting ν b .code) (turn : Turn ν) :
    (Progress.ofTurn s waiting turn).shared.chunk = s.chunk :=
  Shared.chunk_of_lasting (s := { s with globals := turn.globals s.globals })
    (lasting_ofTurn s waiting turn)

theorem lasting_enter (g : Ground) (s : Shared ν) (chunk : Chunk) (index : Nat)
    (arguments : List Value) (waiting : Waiting ν b .code) :
    (Config.enter g s chunk index arguments waiting).shared.lasting = s.lasting := by
  rw [Config.enter]
  split
  · rfl
  · exact lasting_finish s _ waiting

theorem lasting_done (s : Shared ν) (status : Status) (window : List Value)
    (waiting : Waiting ν b .host) :
    (Config.done s status window waiting).shared.lasting = s.lasting := by
  cases waiting with
  | outside => rfl
  | program name caller rest =>
    rw [Config.done]
    split <;> rfl
  | bytecode name run rest =>
    rw [Config.done, lasting_ofTurn, globals_accept]

theorem lasting_call (g : Ground) (s : Shared ν) (window : List Value)
    (waiting : Waiting ν b .host) (name : String) (arguments : Nat)
    (next : Reply → HostProgram ν) :
    (Config.call g s window waiting name arguments next).shared.lasting = s.lasting := by
  rw [Config.call]
  dsimp only
  split
  · rfl
  · split <;> rfl
  · exact lasting_enter g (s.log _) _ _ _ _

/-! ## On one stack -/

theorem Config.ofWorld_onto (o : Outside ν) (c : Config ν b) :
    Shared.ofWorld (c.onto o).world = c.shared := by
  obtain ⟨s, control⟩ := c
  cases control with
  | host window program waiting => rfl
  | code run waiting => rfl

theorem Progress.ofWorld_onto (p : Progress ν .host) :
    Shared.ofWorld (p.onto .nothing).world = p.shared := by
  cases p with
  | more c => exact c.ofWorld_onto .nothing
  | ended s result =>
    cases result
    rfl

end Bytecode.Separate
