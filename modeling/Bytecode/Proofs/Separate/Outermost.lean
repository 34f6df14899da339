import Bytecode.Proofs.Separate.Lockstep

/-!
# The outermost run

A machine that was started on a bytecode function is about one run, the outermost one. Host code
that it calls may call bytecode again, and these inner runs come and go, possibly with chunks that
were loaded meanwhile. None of them decides how the machine ends: it ends as the outermost run does.

So what is to be known of the end is followed along the outermost run alone. An invariant has to be
kept by its instructions and where it gets back from a host function, whatever that function has
done to the rest of the machine (`OutermostProperty.Kept`).
-/

namespace Bytecode.Separate

variable {ν : Type}

/-- The outermost run and the name of the host function it waits for, if it waits. -/
def Waiting.outermost? {b : Awaited} : {a : Awaited} → Waiting ν b a → Option (String × Run)
  | _, .outside => none
  | _, .program _ _ rest => rest.outermost?
  | _, .bytecode name run rest => rest.outermost?.or (some (name, run))
  | _, .entry _ rest => rest.outermost?

/-- While host code executes, the outermost run waits. -/
theorem Waiting.outermost?_ne_none : (waiting : Waiting ν .code .host) → waiting.outermost? ≠ none
  | .program _ _ rest => rest.outermost?_ne_none
  | .bytecode name run rest => by
    intro hnone
    rw [outermost?, Option.or_eq_none_iff] at hnone
    cases hnone.2

/-- Something to be shown of the outermost run. -/
structure OutermostProperty where
  /-- While it executes. -/
  executing : Run → Prop
  /-- While it waits for a host function of this name. -/
  awaiting : String → Run → Prop
  /-- Of the way in which it ends. -/
  ending : Outcome → Prop

namespace OutermostProperty

variable (P : OutermostProperty)

/-- The property after one instruction. -/
def OnTurn : Turn ν → Prop
  | .goes run _ => P.executing run
  | .calls name _ _ run => P.awaiting name run
  | .ends outcome => P.ending outcome

/-- The property where the run is started. -/
def OnEntry (chunk : Chunk) (index : Nat) : Except TrapKind Frame → Prop
  | .ok frame => P.executing ⟨chunk, frame, []⟩
  | .error kind => P.ending (.error ⟨kind, chunk.functionName index, 0⟩)

/-- What is kept locally. -/
structure Kept (ν : Type) : Prop where
  turn {run : Run} (s : Shared ν) (below depth : Nat) :
    P.executing run → P.OnTurn (run.turn s below depth)
  accept {run : Run} {name : String} (s : Shared ν) (status : Status) (results : List Value) :
    P.awaiting name run → P.OnTurn (run.accept s name status results)

/-- The property of the outermost run, if it is among those that wait. -/
def OnWaiting {a : Awaited} (waiting : Waiting ν .code a) : Prop :=
  ∀ name run, waiting.outermost? = some (name, run) → P.awaiting name run

def OnControl : Control ν .code → Prop
  | .host _ _ waiting => P.OnWaiting waiting
  | .code run waiting => (waiting.outermost? = none → P.executing run) ∧ P.OnWaiting waiting

def OnProgress : Progress ν .code → Prop
  | .more c => P.OnControl c.control
  | .ended _ (.code outcome) => P.ending outcome

variable {P}

/-! ## Steps -/

theorem onProgress_finish (s : Shared ν) {outcome : Outcome} {waiting : Waiting ν .code .code}
    (houtcome : waiting.outermost? = none → P.ending outcome) (hwaiting : P.OnWaiting waiting) :
    P.OnProgress (.finish s outcome waiting) := by
  cases waiting with
  | outside => exact houtcome rfl
  | entry caller rest =>
    cases outcome with
    | ok value => exact hwaiting
    | error trap => exact hwaiting

theorem onProgress_ofTurn (s : Shared ν) {waiting : Waiting ν .code .code} {turn : Turn ν}
    (hturn : waiting.outermost? = none → P.OnTurn turn) (hwaiting : P.OnWaiting waiting) :
    P.OnProgress (.ofTurn s waiting turn) := by
  cases turn with
  | goes run globals => exact ⟨hturn, hwaiting⟩
  | ends outcome => exact onProgress_finish s hturn hwaiting
  | calls name function arguments run =>
    -- The run joins those that wait, and is the outermost of them if it was executing as such.
    intro name' run' hrun
    rw [Waiting.outermost?] at hrun
    by_cases houter : waiting.outermost? = none
    · rw [houter, Option.none_or] at hrun
      cases hrun
      exact hturn houter
    · obtain ⟨found, hfound⟩ := Option.ne_none_iff_exists'.mp houter
      rw [hfound, Option.some_or] at hrun
      rw [hrun] at hfound
      exact hwaiting name' run' hfound

theorem onProgress_done (hP : P.Kept ν) (s : Shared ν) (status : Status) (window : List Value)
    {waiting : Waiting ν .code .host} (hwaiting : P.OnWaiting waiting) :
    P.OnProgress (Config.done s status window waiting) := by
  cases waiting with
  | program name caller rest =>
    rw [Config.done]
    split
    · exact hwaiting
    · exact hwaiting
  | bytecode name run rest =>
    refine onProgress_ofTurn s (fun houter ↦ ?_) fun name' run' hrun ↦ ?_
    · refine hP.accept s status window (hwaiting name run ?_)
      rw [Waiting.outermost?, houter, Option.none_or]
    · refine hwaiting name' run' ?_
      rw [Waiting.outermost?, hrun, Option.some_or]

/-- A run that host code starts is not the outermost one. -/
theorem onProgress_enter (g : Ground) (s : Shared ν) (chunk : Chunk) (index : Nat)
    (arguments : List Value) (caller : Suspended ν) {waiting : Waiting ν .code .host}
    (hwaiting : P.OnWaiting waiting) :
    P.OnProgress (Config.enter g s chunk index arguments (.entry caller waiting)) := by
  rw [Config.enter]
  split
  · exact ⟨fun houter ↦ absurd houter waiting.outermost?_ne_none, hwaiting⟩
  · exact onProgress_finish s (fun houter ↦ absurd houter waiting.outermost?_ne_none) hwaiting

theorem onProgress_call (g : Ground) (s : Shared ν) (window : List Value)
    {waiting : Waiting ν .code .host} (name : String) (arguments : Nat)
    (next : Reply → HostProgram ν) (hwaiting : P.OnWaiting waiting) :
    P.OnProgress (Config.call g s window waiting name arguments next) := by
  rw [Config.call]
  dsimp only
  split
  · exact hwaiting
  · split
    · exact hwaiting
    · exact hwaiting
  · exact onProgress_enter g _ _ _ _ _ hwaiting

/-- What is kept locally is kept by every step. -/
theorem onProgress_step (hP : P.Kept ν) (g : Ground) {c : Config ν .code}
    (h : P.OnControl c.control) : P.OnProgress (c.step g) := by
  obtain ⟨s, control⟩ := c
  cases control with
  | code run waiting =>
    exact onProgress_ofTurn s (fun houter ↦ hP.turn s _ _ (h.1 houter)) h.2
  | host window program waiting =>
    cases program with
    | done status => exact onProgress_done hP s status window h
    | call name arguments next => exact onProgress_call g s window name arguments next h
    | ask | act | register | note => exact h

/-- What is kept locally holds until the end. -/
theorem onProgress_after (hP : P.Kept ν) (g : Ground) {p : Progress ν .code} (h : P.OnProgress p)
    (n : Nat) : P.OnProgress (p.after g n) := by
  induction n generalizing p with
  | zero =>
    rw [Progress.after_zero]
    exact h
  | succ n ih =>
    rcases p with c | ⟨s, result⟩
    · exact ih (onProgress_step hP g h)
    · rw [Progress.after_ended]
      exact h

/-- The property where a machine starts to carry out a call. -/
theorem onProgress_codeMachine {s : Shared ν} {below passed : List Value} {depth index : Nat}
    (name : String) {chunk : Chunk}
    (hentry : P.OnEntry chunk index
      (Frame.enter s.limits chunk index below.length depth passed)) :
    P.OnProgress (codeMachine s below depth name chunk index passed) := by
  rw [codeMachine, Config.enter]
  dsimp only [Waiting.values, Waiting.depth, Shared.log]
  split
  next frame hframe =>
    rw [hframe] at hentry
    refine ⟨fun _ ↦ hentry, fun name' run' hrun ↦ ?_⟩
    cases hrun
  next kind hframe =>
    rw [hframe] at hentry
    exact hentry

/-- A machine that carries out a call ends as the property says if it starts so. -/
theorem ending_of_codeMachine (hP : P.Kept ν) {s s' : Shared ν} {below passed : List Value}
    {depth index : Nat} {name : String} {chunk : Chunk} {outcome : Outcome}
    (hentry : P.OnEntry chunk index
      (Frame.enter s.limits chunk index below.length depth passed))
    (hends : (codeMachine s below depth name chunk index passed).Ends ⟨below, depth⟩ s'
      (.code outcome)) : P.ending outcome := by
  obtain ⟨n, hn⟩ := hends
  have hafter := onProgress_after hP ⟨below, depth⟩ (onProgress_codeMachine name hentry) n
  rw [hn] at hafter
  exact hafter

end OutermostProperty

end Bytecode.Separate
