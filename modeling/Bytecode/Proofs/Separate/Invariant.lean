import Bytecode.Proofs.Separate.Host
import Bytecode.Proofs.Separate.Step

/-!
# Invariants of runs

Properties that hold of every run at every moment, however deep it is nested and whatever host code
does in between.

Host code cannot reach into a run, and a run meets host code at three places only: where it is
called, where it calls a host function and where that function is done. So a property of runs is
kept by the whole machine as soon as it is kept by single instructions and at these three places
(`RunProperty.Kept`). That it then holds for ever is proved here once, for all such properties.
-/

namespace Bytecode.Separate

variable {ν : Type} {b : Awaited}

/-- Something to be shown of all runs. -/
structure RunProperty where
  /-- Of the chunks that are loaded. -/
  admitted : Chunk → Prop
  /-- Of a run that executes. -/
  executing : Run → Prop
  /-- Of a run that waits for a host function. -/
  awaiting : Run → Prop
  /-- Of the way in which a run ends. -/
  ending : Outcome → Prop

namespace RunProperty

variable (P : RunProperty)

/-- The property after one instruction. -/
def OnTurn : Turn ν → Prop
  | .goes run _ => P.executing run
  | .calls _ _ _ run => P.awaiting run
  | .ends outcome => P.ending outcome

/-- The property where a function of a chunk is entered from outside. -/
def OnEntry (chunk : Chunk) (index : Nat) : Except TrapKind Frame → Prop
  | .ok frame => P.executing ⟨chunk, frame, []⟩
  | .error kind => P.ending (.error ⟨kind, chunk.functionName index, 0⟩)

/-- What is kept locally. -/
structure Kept (ν : Type) : Prop where
  loaded {bytes : Bytes} {chunk : Chunk} : Machine.admit bytes = .ok chunk → P.admitted chunk
  enter {chunk : Chunk} {index : Nat} (limits : Limits) (under depth : Nat)
    (arguments : List Value) : P.admitted chunk → index < chunk.functions.size →
    P.OnEntry chunk index (Frame.enter limits chunk index under depth arguments)
  turn {run : Run} (s : Shared ν) (below depth : Nat) :
    P.executing run → P.OnTurn (run.turn s below depth)
  accept {run : Run} (s : Shared ν) (name : String) (status : Status) (results : List Value) :
    P.awaiting run → P.OnTurn (run.accept s name status results)

/-- The loaded chunk, if there is one, is admitted. -/
def OnShared (s : Shared ν) : Prop :=
  ∀ chunk, s.chunk = some chunk → P.admitted chunk

/-- The property of all runs that wait. -/
def OnWaiting : {a : Awaited} → Waiting ν b a → Prop
  | _, .outside => True
  | _, .program _ _ rest => OnWaiting rest
  | _, .bytecode _ run rest => P.awaiting run ∧ OnWaiting rest
  | _, .entry _ rest => OnWaiting rest

def OnControl : Control ν b → Prop
  | .host _ _ waiting => P.OnWaiting waiting
  | .code run waiting => P.executing run ∧ P.OnWaiting waiting

/-- The property of all runs of a configuration. -/
def OnConfig (c : Config ν b) : Prop :=
  P.OnShared c.shared ∧ P.OnControl c.control

def OnResult : Result b → Prop
  | .host _ _ => True
  | .code outcome => P.ending outcome

def OnProgress : Progress ν b → Prop
  | .more c => P.OnConfig c
  | .ended s result => P.OnShared s ∧ P.OnResult result

variable {P}

/-! ## Steps -/

theorem onProgress_finish {s : Shared ν} {outcome : Outcome} {waiting : Waiting ν b .code}
    (hs : P.OnShared s) (houtcome : P.ending outcome) (hwaiting : P.OnWaiting waiting) :
    P.OnProgress (.finish s outcome waiting) := by
  cases waiting with
  | outside => exact ⟨hs, houtcome⟩
  | entry caller rest =>
    cases outcome with
    | ok value => exact ⟨hs, hwaiting⟩
    | error trap => exact ⟨hs, hwaiting⟩

theorem onProgress_ofTurn {s : Shared ν} {waiting : Waiting ν b .code} {turn : Turn ν}
    (hs : P.OnShared s) (hturn : P.OnTurn turn) (hwaiting : P.OnWaiting waiting) :
    P.OnProgress (.ofTurn s waiting turn) := by
  cases turn with
  | goes run globals => exact ⟨hs, hturn, hwaiting⟩
  | calls name function arguments run => exact ⟨hs, hturn, hwaiting⟩
  | ends outcome => exact onProgress_finish hs hturn hwaiting

theorem onProgress_enter (hP : P.Kept ν) (g : Ground) {s : Shared ν} {chunk : Chunk} {index : Nat}
    (arguments : List Value) {waiting : Waiting ν b .code} (hs : P.OnShared s)
    (hchunk : P.admitted chunk) (hindex : index < chunk.functions.size)
    (hwaiting : P.OnWaiting waiting) :
    P.OnProgress (Config.enter g s chunk index arguments waiting) := by
  have henter := hP.enter s.limits (waiting.values g.values).length (waiting.depth g.depth)
    arguments hchunk hindex
  rw [Config.enter]
  cases hframe : Frame.enter s.limits chunk index (waiting.values g.values).length
      (waiting.depth g.depth) arguments with
  | ok frame =>
    rw [hframe] at henter
    exact ⟨hs, henter, hwaiting⟩
  | error kind =>
    rw [hframe] at henter
    exact onProgress_finish hs henter hwaiting

theorem onProgress_done (hP : P.Kept ν) {s : Shared ν} (status : Status) (window : List Value)
    {waiting : Waiting ν b .host} (hs : P.OnShared s) (hwaiting : P.OnWaiting waiting) :
    P.OnProgress (Config.done s status window waiting) := by
  cases waiting with
  | outside => exact ⟨hs, trivial⟩
  | program name caller rest =>
    rw [Config.done]
    split
    · exact ⟨hs, hwaiting⟩
    · exact ⟨hs, hwaiting⟩
  | bytecode name run rest =>
    exact onProgress_ofTurn hs (hP.accept s name status window hwaiting.1) hwaiting.2

/-- What an operation makes of the loaded chunk: it leaves it alone, or loads one that was
admitted. -/
def LoadsAdmitted (w : World ν) (outcome : Reply × World ν) : Prop :=
  outcome.2.machine.chunk = w.machine.chunk ∨
    ∃ bytes chunk, Machine.admit bytes = .ok chunk ∧ outcome.2.machine.chunk = some chunk

theorem loadsAdmitted_load (w : World ν) (bytes : Bytes) : LoadsAdmitted w (w.load bytes) := by
  rw [World.load]
  cases hadmit : Machine.admit bytes with
  | error failure => exact .inl rfl
  | ok chunk => exact .inr ⟨bytes, chunk, hadmit, rfl⟩

theorem loadsAdmitted_perform (w : World ν) (command : Command ν) :
    LoadsAdmitted w (command.perform w) := by
  cases command with
  | load bytes => exact loadsAdmitted_load w bytes
  | loadFile path =>
    rw [Command.perform, World.loadFile]
    split
    · exact .inl rfl
    · exact loadsAdmitted_load w _
  | saveFile path =>
    rw [Command.perform, World.saveFile]
    split
    · exact .inl rfl
    · split <;> exact .inl rfl
  | setGlobal name =>
    rw [Command.perform, World.setGlobal]
    split
    · exact .inl rfl
    · split <;> exact .inl rfl
  | getGlobal name =>
    rw [Command.perform, World.getGlobal]
    split
    · exact .inl rfl
    · split <;> exact .inl rfl
  | push | pop | setTop | clearError | raise | setListener | setLimits | writeFile =>
    exact .inl rfl

theorem loadsAdmitted_register (w : World ν) (name : String) (function : HostFunction ν) :
    LoadsAdmitted w (w.register name function) := by
  rw [World.register]
  split <;> exact .inl rfl

theorem onConfig_operate (hP : P.Kept ν) {s : Shared ν} {window : List Value}
    {waiting : Waiting ν b .host} {operation : World ν → Reply × World ν}
    (next : Reply → HostProgram ν) (hs : P.OnShared s) (hwaiting : P.OnWaiting waiting)
    (h : LoadsAdmitted (s.seen window) (operation (s.seen window))) :
    P.OnConfig (Config.operate s window waiting operation next) := by
  refine ⟨fun chunk hchunk ↦ ?_, hwaiting⟩
  change (operation (s.seen window)).2.machine.chunk = some chunk at hchunk
  rcases h with h | ⟨bytes, loaded, hadmit, h⟩
  · rw [h] at hchunk
    exact hs chunk hchunk
  · rw [h] at hchunk
    cases hchunk
    exact hP.loaded hadmit

theorem onProgress_call (hP : P.Kept ν) (g : Ground) {s : Shared ν} (window : List Value)
    {waiting : Waiting ν b .host} (name : String) (arguments : Nat) (next : Reply → HostProgram ν)
    (hs : P.OnShared s) (hwaiting : P.OnWaiting waiting) :
    P.OnProgress (Config.call g s window waiting name arguments next) := by
  rw [Config.call]
  cases hdispatch : (s.seen window).machine.dispatch name arguments with
  | error failure => exact ⟨hs, hwaiting⟩
  | ok callee =>
    cases callee with
    | host function =>
      dsimp only
      split
      · exact ⟨hs, hwaiting⟩
      · exact ⟨hs, hwaiting⟩
    | code chunk index =>
      obtain ⟨-, hchunk, hindex, -⟩ := dispatch_ok hdispatch
      exact onProgress_enter hP g _ hs (hs chunk hchunk) hindex hwaiting

/-- What is kept locally is kept by every step. -/
theorem onProgress_step (hP : P.Kept ν) (g : Ground) {c : Config ν b} (h : P.OnConfig c) :
    P.OnProgress (c.step g) := by
  obtain ⟨s, control⟩ := c
  obtain ⟨hs, hcontrol⟩ := h
  cases control with
  | code run waiting =>
    exact onProgress_ofTurn hs (hP.turn s _ _ hcontrol.1) hcontrol.2
  | host window program waiting =>
    cases program with
    | done status => exact onProgress_done hP status window hs hcontrol
    | ask query next => exact ⟨hs, hcontrol⟩
    | act command next =>
      exact onConfig_operate hP next hs hcontrol (loadsAdmitted_perform _ command)
    | register name arity body next =>
      exact onConfig_operate hP next hs hcontrol (loadsAdmitted_register _ name ⟨arity, body⟩)
    | call name arguments next => exact onProgress_call hP g window name arguments next hs hcontrol
    | note note next => exact ⟨hs, hcontrol⟩

/-- What is kept locally holds of all runs until the end. -/
theorem onProgress_after (hP : P.Kept ν) (g : Ground) {p : Progress ν b} (h : P.OnProgress p)
    (n : Nat) : P.OnProgress (p.after g n) := by
  induction n generalizing p with
  | zero => cases p <;> exact h
  | succ n ih =>
    cases p with
    | more c => exact ih (onProgress_step hP g h)
    | ended s result => exact h

/-- The property that says nothing. -/
def anything : RunProperty :=
  ⟨fun _ ↦ True, fun _ ↦ True, fun _ ↦ True, fun _ ↦ True⟩

theorem onTurn_anything (turn : Turn ν) : anything.OnTurn turn := by
  cases turn <;> trivial

theorem anything_kept : anything.Kept ν where
  loaded _ := trivial
  enter limits under depth arguments _ _ := by
    cases Frame.enter limits _ _ under depth arguments <;> trivial
  turn _ _ _ _ := onTurn_anything _
  accept _ _ _ _ _ := onTurn_anything _

end RunProperty

end Bytecode.Separate
