import Bytecode.Proofs.Separate.Faults
import Bytecode.Proofs.Separate.Lasting

/-!
# The law of the error log

Many operations can fail, traps cross frames and host functions before a call returns them, and host
code inside a host function sees failures of its own. At every moment of every session the error
record and what the listeners were told are functions of what host code has seen, in the order in
which it saw it.

## Why one step is enough

A step that answers an operation writes to the log what the reply means and nothing else, and any
other step leaves the log alone (`Settles`). Both are read off the machine with separate frames,
where the code that waits for a reply is at hand as the nearest link of the chain.
-/

namespace Bytecode

variable {ν : Type}

/-! ## Statuses of failures -/

theorem Failure.status_ne_ok {failure : Failure} (htrapped : ∀ trap, failure ≠ .trapped trap)
    (hhost : ∀ name status, failure ≠ .hostFailed name status) : failure.status ≠ .ok := by
  cases failure with
  | trapped trap => exact absurd rfl (htrapped trap)
  | hostFailed name status => exact absurd rfl (hhost name status)
  | _ => simp [status]

/-! ## Operations -/

/-- The operation writes to the log what its reply means, where a success means `onSuccess`. -/
structure World.Reports (w : World ν) (onSuccess : Option (Happening ν))
    (outcome : Reply × World ν) : Prop where
  follows : w.errorLog.Follows (outcome.1.happening? onSuccess).toList outcome.2.errorLog
  status {failure : Failure} : outcome.1 = .error failure → failure.status ≠ .ok

namespace World

variable {w : World ν} {onSuccess : Option (Happening ν)}

theorem reports_fail {failure : Failure} (h : failure.status ≠ .ok) :
    w.Reports onSuccess (w.fail failure) where
  follows := w.errorLog.follows_raise (.failed failure) rfl
  status hfailure := by
    cases hfailure
    exact h

theorem Reports.of_errorLog {v : World ν} {outcome : Reply × World ν}
    (h : v.Reports onSuccess outcome) (hlog : v.errorLog = w.errorLog) :
    w.Reports onSuccess outcome :=
  ⟨hlog ▸ h.follows, h.status⟩

/-- A success that leaves the log alone. -/
theorem reports_ok {w' : World ν} (h : w'.errorLog = w.errorLog) : w.Reports none (.ok (), w') where
  follows := by
    rw [h]
    exact w.errorLog.follows_refl
  status hfailure := by cases hfailure

theorem reports_log {w' : World ν} {event : Event ν} (hheard : event.heard? = none)
    (hreport : event.report? = none)
    (h : w'.errorLog = { w.errorLog with journal := w.journal.push event }) :
    w.Reports none (.ok (), w') where
  follows := by
    rw [h]
    exact w.errorLog.follows_push hheard hreport
  status hfailure := by cases hfailure

theorem admit_error_status {bytes : Bytes} {failure : Failure}
    (h : Machine.admit bytes = .error failure) : failure.status ≠ .ok := by
  unfold Machine.admit at h
  split at h
  · cases h
    simp [Failure.status]
  split at h
  · cases h
    simp [Failure.status]
  split at h
  · cases h
  · cases h
    simp [Failure.status]

theorem reports_load (bytes : Bytes) : w.Reports none (w.load bytes) := by
  rw [load]
  cases hadmit : Machine.admit bytes with
  | error failure => exact reports_fail (admit_error_status hadmit)
  | ok chunk => exact reports_log rfl rfl rfl

theorem reports_register (name : String) (function : HostFunction ν) :
    w.Reports none (w.register name function) := by
  rw [register]
  split
  · exact reports_fail (by simp [Failure.status])
  · exact reports_log rfl rfl rfl

theorem reports_perform (command : Command ν) :
    w.Reports command.happening? (command.perform w) := by
  cases command with
  | load bytes => exact reports_load bytes
  | loadFile path =>
    rw [Command.perform, loadFile]
    split
    · exact reports_fail (by simp [Failure.status])
    · exact reports_load _
  | saveFile path =>
    rw [Command.perform, saveFile]
    split
    · exact reports_fail (by simp [Failure.status])
    split
    · exact (reports_fail (by simp [Failure.status])).of_errorLog rfl
    · exact reports_ok rfl
  | setGlobal name =>
    rw [Command.perform, setGlobal]
    split
    · exact reports_fail (by simp [Failure.status])
    split
    · exact reports_fail (by simp [Failure.status])
    · exact reports_ok rfl
  | getGlobal name =>
    rw [Command.perform, getGlobal]
    split
    · exact reports_fail (by simp [Failure.status])
    split
    · exact reports_fail (by simp [Failure.status])
    · exact reports_ok rfl
  | raise status message =>
    exact ⟨w.errorLog.follows_raise (.raised status message) rfl, by simp [Command.perform]⟩
  | clearError => exact ⟨w.errorLog.follows_clear, by simp [Command.perform]⟩
  | setListener listener => exact ⟨w.errorLog.follows_setListener _, by simp [Command.perform]⟩
  | push | pop | setTop | setLimits | writeFile => exact reports_ok rfl

end World

namespace Separate

variable {b : Awaited}

/-! ## Who waits for a reply -/

def Shared.errorLog (s : Shared ν) : ErrorLog ν :=
  ⟨s.errors, s.journal⟩

/-- The chain with `k` in the place of the host code that waits for the call under way. -/
def Waiting.answering (k : Reply → HostProgram ν) : {a : Awaited} → Waiting ν b a → Waiting ν b a
  | _, .outside => .outside
  | _, .program name caller rest => .program name { caller with resume := k } rest
  | _, .bytecode name run rest => .bytecode name run (rest.answering k)
  | _, .entry caller rest => .entry { caller with resume := k } rest

theorem Waiting.values_answering (k : Reply → HostProgram ν) (ground : List Value)
    (waiting : Waiting ν b .code) :
    (waiting.answering k).values ground = waiting.values ground := by
  cases waiting <;> rfl

theorem Waiting.depth_answering (k : Reply → HostProgram ν) (ground : Nat)
    (waiting : Waiting ν b .code) :
    (waiting.answering k).depth ground = waiting.depth ground := by
  cases waiting <;> rfl

/-- The configuration with `k` in the place of the host code that waits for the operation under
way. -/
def Config.answering (k : Reply → HostProgram ν) : Config ν b → Config ν b
  | ⟨s, .host window (.act command _) waiting⟩ => ⟨s, .host window (.act command k) waiting⟩
  | ⟨s, .host window (.register name arity body _) waiting⟩ =>
    ⟨s, .host window (.register name arity body k) waiting⟩
  | ⟨s, .host window (.call name arguments _) waiting⟩ =>
    ⟨s, .host window (.call name arguments k) waiting⟩
  | ⟨s, .host window (.done status) waiting⟩ =>
    ⟨s, .host window (.done status) (waiting.answering k)⟩
  | ⟨s, .code run waiting⟩ => ⟨s, .code run (waiting.answering k)⟩
  | c => c

theorem answering_onto (k : Reply → HostProgram ν) (own : Config ν .host) :
    (own.onto .nothing).answering k = (own.answering k).onto .nothing := by
  obtain ⟨s, control⟩ := own
  cases control with
  | code run waiting =>
    cases waiting
    rfl
  | host window program waiting =>
    cases program with
    | done status =>
      cases waiting with
      | outside => rfl
      | program name caller rest => rfl
      | bytecode name run rest =>
        cases rest
        rfl
    | ask | act | register | call | note => rfl

theorem exists_answering_eq (own : Config ν .host) : ∃ k, own.answering k = own := by
  obtain ⟨s, control⟩ := own
  cases control with
  | code run waiting =>
    cases waiting with
    | entry caller rest => exact ⟨caller.resume, rfl⟩
  | host window program waiting =>
    cases program with
    | act command next => exact ⟨next, rfl⟩
    | register name arity body next => exact ⟨next, rfl⟩
    | call name arguments next => exact ⟨next, rfl⟩
    | ask query next => exact ⟨fun _ ↦ .done .ok, rfl⟩
    | note note next => exact ⟨fun _ ↦ .done .ok, rfl⟩
    | done status =>
      cases waiting with
      | outside => exact ⟨fun _ ↦ .done .ok, rfl⟩
      | program name caller rest => exact ⟨caller.resume, rfl⟩
      | bytecode name run rest =>
        cases rest with
        | entry caller rest => exact ⟨caller.resume, rfl⟩

/-! ## Steps -/

/-- The host program that is executed next, if one is. -/
def Progress.program? : Progress ν b → Option (HostProgram ν)
  | .more ⟨_, .host _ program _⟩ => some program
  | .more ⟨_, .code _ _⟩ | .ended _ _ => none

/-- What a step comes to, for all host code `k` that may wait for the operation under way: it
answers the operation, and writes to the log what the reply means, or it goes on without a look at
`k` and leaves the log alone. -/
inductive Settles (s : Shared ν) (onSuccess : Option (Happening ν))
    (p : (Reply → HostProgram ν) → Progress ν b) : Prop where
  | answers (reply : Reply) (s' : Shared ν) (window : List Value) (rest : Waiting ν b .host)
    (hp : ∀ k, p k = .more ⟨s', .host window (k reply) rest⟩)
    (hfollows : s.errorLog.Follows (reply.happening? onSuccess).toList s'.errorLog)
    (hstatus : ∀ failure, reply = .error failure → failure.status ≠ .ok)
  | goesOn (program? : Option (HostProgram ν)) (hp : ∀ k, (p k).program? = program?)
    (hfollows : ∀ k, s.errorLog.Follows [] (p k).shared.errorLog)

section Settles

variable {s s' : Shared ν} {onSuccess : Option (Happening ν)}

theorem follows_log (s : Shared ν) {entry : LogEntry}
    (h : (Event.logged entry : Event ν).report? = none) :
    s.errorLog.Follows [] (s.log entry).errorLog :=
  s.errorLog.follows_push rfl h

/-- An operation fails after nothing or only entries in the log. -/
theorem settles_fail (hlog : s.errorLog.Follows [] s'.errorLog) {failure : Failure}
    (hstatus : failure.status ≠ .ok) (window : List Value) (rest : Waiting ν b .host) :
    Settles s onSuccess fun k ↦
      .more ⟨s'.fail failure, .host window (k (.error failure)) rest⟩ := by
  refine .answers (.error failure) (s'.fail failure) window rest (fun _ ↦ rfl) ?_ ?_
  · exact hlog.trans (s'.errorLog.follows_raise (.failed failure) rfl)
  · intro failure' hfailure
    cases hfailure
    exact hstatus

theorem settles_finish (hlog : s.errorLog.Follows [] s'.errorLog) {outcome : Outcome}
    (houtcome : outcome.Faults) (waiting : Waiting ν b .code) :
    Settles s none fun k ↦ .finish s' outcome (waiting.answering k) := by
  cases waiting with
  | outside => exact .goesOn none (fun _ ↦ rfl) fun _ ↦ hlog
  | entry caller rest =>
    cases outcome with
    | ok value =>
      exact .answers (.ok ()) s' (caller.window ++ [value]) rest (fun _ ↦ rfl) hlog
        fun _ hfailure ↦ by cases hfailure
    | error trap =>
      have hstatus : (Failure.trapped trap).status ≠ .ok := houtcome
      exact settles_fail hlog hstatus caller.window rest

theorem settles_ofTurn {turn : Turn ν} (hturn : turn.Faults) (waiting : Waiting ν b .code) :
    Settles s none fun k ↦ .ofTurn s (waiting.answering k) turn := by
  cases turn with
  | goes run globals => exact .goesOn none (fun _ ↦ rfl) fun _ ↦ s.errorLog.follows_refl
  | calls name function arguments run =>
    exact .goesOn (some function.body) (fun _ ↦ rfl) fun _ ↦ s.errorLog.follows_refl
  | ends outcome => exact settles_finish s.errorLog.follows_refl hturn waiting

theorem settles_done (status : Status) (window : List Value) (waiting : Waiting ν b .host) :
    Settles s none fun k ↦ Config.done s status window (waiting.answering k) := by
  cases waiting with
  | outside => exact .goesOn none (fun _ ↦ rfl) fun _ ↦ s.errorLog.follows_refl
  | bytecode name run rest => exact settles_ofTurn (faults_accept s name status window) rest
  | program name caller rest =>
    simp only [Waiting.answering, Config.done]
    cases hstatus : status.isOk with
    | true =>
      exact .answers (.ok ()) s _ rest (fun _ ↦ rfl) s.errorLog.follows_refl
        fun _ hfailure ↦ by cases hfailure
    | false =>
      refine settles_fail s.errorLog.follows_refl ?_ _ rest
      intro hok
      rw [Failure.status] at hok
      rw [hok] at hstatus
      cases hstatus

theorem settles_enter (g : Ground) (hlog : s.errorLog.Follows [] s'.errorLog) (chunk : Chunk)
    (index : Nat) (arguments window : List Value) (rest : Waiting ν b .host) :
    Settles s none fun k ↦
      Config.enter g s' chunk index arguments (.entry ⟨window, k⟩ rest) := by
  simp only [Config.enter, Waiting.values, Waiting.depth]
  cases henter : Frame.enter s'.limits chunk index (rest.values g.values ++ window).length
      (rest.depth g.depth) arguments with
  | ok frame => exact .goesOn none (fun _ ↦ rfl) fun _ ↦ hlog
  | error kind =>
    have hfaults : Outcome.Faults (.error ⟨kind, chunk.functionName index, 0⟩) :=
      Faults.of_error (faults_enter ..) henter
    exact settles_finish hlog hfaults (.entry ⟨window, fun _ ↦ .done .ok⟩ rest)

theorem settles_call (g : Ground) (window : List Value) (waiting : Waiting ν b .host)
    (name : String) (arguments : Nat) :
    Settles s none fun k ↦ Config.call g s window waiting name arguments k := by
  simp only [Config.call]
  cases hdispatch : (s.seen window).machine.dispatch name arguments with
  | error failure =>
    obtain ⟨htrapped, hhost⟩ := dispatch_error hdispatch
    exact settles_fail s.errorLog.follows_refl (Failure.status_ne_ok htrapped hhost) window waiting
  | ok callee =>
    cases callee with
    | code chunk index => exact settles_enter g (follows_log s rfl) chunk index _ _ waiting
    | host function =>
      dsimp only
      split
      · exact settles_fail (follows_log s rfl) (by simp [Failure.status]) window waiting
      · exact .goesOn (some function.body) (fun _ ↦ rfl) fun _ ↦ follows_log s rfl

theorem settles_operate (window : List Value) (waiting : Waiting ν b .host)
    {operation : World ν → Reply × World ν}
    (h : (s.seen window).Reports onSuccess (operation (s.seen window))) :
    Settles s onSuccess fun k ↦ .more (Config.operate s window waiting operation k) :=
  .answers (operation (s.seen window)).1 (.ofWorld (operation (s.seen window)).2) _ waiting
    (fun _ ↦ rfl) h.follows fun _ hfailure ↦ h.status hfailure

end Settles

/-- What a success of the operation under way means for the error log. -/
def Control.happening? : Control ν b → Option (Happening ν)
  | .host _ (.act command _) _ => command.happening?
  | _ => none

/-- Every step answers the operation under way or goes on. -/
theorem settles_step (g : Ground) (own : Config ν b) :
    Settles own.shared own.control.happening? fun k ↦ (own.answering k).step g := by
  obtain ⟨s, control⟩ := own
  cases control with
  | code run waiting =>
    simp only [Config.answering, Config.step, Waiting.values_answering, Waiting.depth_answering]
    exact settles_ofTurn (faults_turn s _ _) waiting
  | host window program waiting =>
    cases program with
    | done status => exact settles_done status window waiting
    | ask query next =>
      exact .goesOn (some (next (query.answer (s.seen window)))) (fun _ ↦ rfl)
        fun _ ↦ s.errorLog.follows_refl
    | note note next =>
      exact .goesOn (some next) (fun _ ↦ rfl) fun _ ↦ s.errorLog.follows_push rfl rfl
    | act command next => exact settles_operate window waiting (World.reports_perform command)
    | register name arity body next =>
      exact settles_operate window waiting (World.reports_register name ⟨arity, body⟩)
    | call name arguments next => exact settles_call g window waiting name arguments

end Separate

open Separate

/-! ## Sessions -/

/-- The host program that is executed next, if one is. -/
def Progress.program? : Progress ν → Option (HostProgram ν)
  | .more ⟨_, .host program, _⟩ => some program
  | .more ⟨_, .code _, _⟩ | .halted _ _ => none

/-- A step that takes no notice of who waits does not answer. -/
theorem Config.not_answers {c : Config ν} {program? : Option (HostProgram ν)}
    (h : ∀ k, (c.answering k).step.program? = program?) (reply : Reply) : ¬c.Answers reply := by
  intro hanswers
  have hsome (status : Status) : program? = some (.done status) := by
    obtain ⟨w, calls, hstep⟩ := hanswers fun _ ↦ .done status
    rw [← h fun _ ↦ .done status, hstep]
    rfl
  have hsame := (hsome .ok).symm.trans (hsome .runtimeError)
  cases hsame

theorem program?_onto (p : Separate.Progress ν .host) :
    (p.onto .nothing).program? = p.program? := by
  cases p with
  | more own =>
    obtain ⟨s, control⟩ := own
    cases control <;> rfl
  | ended s result =>
    cases result
    rfl

theorem errorLog_onto (p : Separate.Progress ν .host) :
    (p.onto .nothing).world.errorLog = p.shared.errorLog :=
  congrArg Shared.errorLog p.ofWorld_onto

theorem happening?_onto (own : Separate.Config ν .host) :
    (own.onto .nothing).control.happening? = own.control.happening? := by
  obtain ⟨s, control⟩ := own
  cases control with
  | code run waiting => rfl
  | host window program waiting => cases program <;> rfl

theorem happening?_ne_failed (control : Separate.Control ν .host) (failure : Failure) :
    control.happening? ≠ some (.failed failure) := by
  cases control with
  | code run waiting => simp [Separate.Control.happening?]
  | host window program waiting =>
    cases program with
    | act command next => cases command <;> simp [Separate.Control.happening?, Command.happening?]
    | _ => simp [Separate.Control.happening?]

/-- One step writes to the log what happens in it. -/
theorem step_follows (own : Separate.Config ν .host) :
    let c := own.onto .nothing
    c.world.errorLog.Follows c.happens c.step.world.errorLog ∧
      ∀ failure, .failed failure ∈ c.happens → failure.status ≠ .ok := by
  intro c
  let g : Ground := (Outside.nothing : Outside ν).toGround
  have hstep (k : Reply → HostProgram ν) :
      (c.answering k).step = ((own.answering k).step g).onto .nothing := by
    rw [answering_onto, step_onto]
  obtain ⟨k, hk⟩ := exists_answering_eq own
  have hafter : c.step = ((own.answering k).step g).onto .nothing := by
    rw [hk, ← step_onto]
  have hbefore : c.world.errorLog = own.shared.errorLog := errorLog_onto (.more own)
  rw [hbefore, hafter, errorLog_onto]
  cases settles_step g own with
  | answers reply s' window rest hp hfollows hstatus =>
    have hanswers : c.Answers reply := by
      intro k
      rw [hstep, hp]
      exact ⟨_, _, rfl⟩
    have hhappens : c.happens = (reply.happening? own.control.happening?).toList := by
      rw [Config.happens, Config.reply?_eq_some hanswers, ← happening?_onto]
      rfl
    rw [hhappens, hp]
    refine ⟨hfollows, fun failure hmem ↦ ?_⟩
    cases reply with
    | error failure' =>
      cases List.mem_singleton.mp hmem
      exact hstatus failure rfl
    | ok =>
      rw [Option.mem_toList] at hmem
      exact absurd hmem (happening?_ne_failed own.control failure)
  | goesOn program? hp hfollows =>
    have hfixed (k : Reply → HostProgram ν) : (c.answering k).step.program? = program? := by
      rw [hstep, program?_onto, hp]
    have hnone : c.reply? = none := Config.reply?_eq_none (Config.not_answers hfixed)
    have hhappens : c.happens = [] := by
      rw [Config.happens, hnone]
      rfl
    rw [hhappens]
    exact ⟨hfollows k, fun _ hmem ↦ absurd hmem List.not_mem_nil⟩

/-- Many steps write to the log what happens in them, one after the other. -/
theorem after_follows (own : Separate.Config ν .host) (n : Nat) :
    let p : Progress ν := .more (own.onto .nothing)
    p.world.errorLog.Follows (p.happenings n) (p.after n).world.errorLog ∧
      ∀ failure, .failed failure ∈ p.happenings n → failure.status ≠ .ok := by
  induction n generalizing own with
  | zero => exact ⟨ErrorLog.follows_refl _, fun _ hmem ↦ absurd hmem List.not_mem_nil⟩
  | succ n ih =>
    intro p
    obtain ⟨hfirst, hstatus⟩ := step_follows own
    rw [Progress.happenings, Progress.after_more_succ]
    rw [step_onto] at hfirst ⊢
    cases hown : own.step (Outside.nothing : Outside ν).toGround with
    | more own' =>
      rw [hown] at hfirst
      obtain ⟨hrest, hstatus'⟩ := ih own'
      refine ⟨hfirst.trans hrest, fun failure hmem ↦ ?_⟩
      rcases List.mem_append.mp hmem with hmem | hmem
      · exact hstatus failure hmem
      · exact hstatus' failure hmem
    | ended s result =>
      cases result with
      | host status window =>
        have hhalted : (Separate.Progress.ended s (.host status window)).onto .nothing
            = .halted status (s.world ⟨window.toArray, 0⟩ 0) := rfl
        rw [hown, hhalted] at hfirst
        rw [hhalted, Progress.after_halted, Progress.happenings_halted, List.append_nil]
        exact ⟨hfirst, hstatus⟩

/-- The error record and what the listeners were told are what the law says, at every moment of
every session on a fresh machine: the record is the last failure since it was last cleared, and
every failure that host code saw or raised was announced once, in order, to the listener that it had
installed by then. No failure is reported as a success. -/
theorem error_log_law (limits : Limits) (files : Files) (journal : Array (Event ν))
    (program : HostProgram ν) (n : Nat) :
    let session : Progress ν := .more (.start ⟨{ limits }, files, journal⟩ program)
    let happenings := session.happenings n
    let w := (session.after n).world
    w.machine.errors.record = lastReport happenings ∧
      heard w.journal = heard journal ++ firings none happenings ∧
      reported w.journal = reported journal ++ happenings.filterMap Happening.report? ∧
      ∀ failure, .failed failure ∈ happenings → failure.status ≠ .ok := by
  intro session happenings w
  let own : Separate.Config ν .host :=
    ⟨.ofWorld ⟨{ limits }, files, journal⟩, .host [] program .outside⟩
  obtain ⟨hfollows, hstatus⟩ := after_follows own n
  refine ⟨?_, hfollows.heard, hfollows.reported, hstatus⟩
  rw [← foldl_record]
  exact hfollows.record

end Bytecode