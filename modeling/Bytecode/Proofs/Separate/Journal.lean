import Bytecode.Proofs.Separate.Lockstep

/-!
# The journal is only written to

Nothing that the machine or its host code does depends on what has been noted so far: a machine that
starts with a longer past does the same and notes the same. As for the placement on one stack, this
is an equation for all configurations, `step_precededBy`.
-/

namespace Bytecode

variable {ν : Type} (past : Array (Event ν))

namespace World

/-- The world with these events before its own. -/
def precededBy (w : World ν) : World ν :=
  { w with journal := past ++ w.journal }

@[simp] theorem machine_precededBy (w : World ν) : (w.precededBy past).machine = w.machine := rfl

@[simp] theorem files_precededBy (w : World ν) : (w.precededBy past).files = w.files := rfl

theorem log_precededBy (w : World ν) (entry : LogEntry) :
    (w.precededBy past).log entry = (w.log entry).precededBy past := by
  simp [precededBy, log]

theorem raise_precededBy (w : World ν) (status : Status) (message : String) :
    (w.precededBy past).raise status message = (w.raise status message).precededBy past := by
  have hjournal (added : List (Event ν)) :
      past ++ w.journal ++ added = past ++ (w.journal ++ added) :=
    Array.ext' (by simp)
  simp only [precededBy, raise, hjournal]

/-- The operation does the same whatever has been noted before. -/
def Forgetful (operation : World ν → Reply × World ν) : Prop :=
  ∀ past w, operation (w.precededBy past) = ((operation w).1, (operation w).2.precededBy past)

theorem forgetful_fail (failure : Failure) : Forgetful fun w : World ν ↦ w.fail failure :=
  fun past w ↦ congrArg (Prod.mk _) (raise_precededBy past w _ _)

theorem forgetful_load (bytes : Bytes) : Forgetful fun w : World ν ↦ w.load bytes := by
  intro past w
  cases hadmit : Machine.admit bytes with
  | error failure =>
    simp only [load, hadmit]
    exact forgetful_fail failure past w
  | ok chunk =>
    simp only [load, hadmit]
    exact congrArg (Prod.mk _) (log_precededBy past { w with machine := _ } _)

theorem forgetful_register (name : String) (function : HostFunction ν) :
    Forgetful fun w ↦ w.register name function := by
  intro past w
  by_cases hname : name = ""
  · simp only [register, if_pos hname]
    exact forgetful_fail _ past w
  · simp only [register, if_neg hname]
    exact congrArg (Prod.mk _) (log_precededBy past { w with machine := _ } _)

theorem forgetful_setGlobal (name : String) : Forgetful fun w : World ν ↦ w.setGlobal name := by
  intro past w
  by_cases hname : name = ""
  · simp only [setGlobal, if_pos hname]
    exact forgetful_fail _ past w
  · simp only [setGlobal, if_neg hname, machine_precededBy]
    split
    · exact forgetful_fail _ past w
    · rfl

theorem forgetful_getGlobal (name : String) : Forgetful fun w : World ν ↦ w.getGlobal name := by
  intro past w
  by_cases hname : name = ""
  · simp only [getGlobal, if_pos hname]
    exact forgetful_fail _ past w
  · simp only [getGlobal, if_neg hname, machine_precededBy]
    split
    · exact forgetful_fail _ past w
    · rfl

theorem forgetful_loadFile (path : Bytes) : Forgetful fun w : World ν ↦ w.loadFile path := by
  intro past w
  simp only [loadFile, files_precededBy]
  split
  · exact forgetful_fail _ past w
  · exact forgetful_load _ past w

theorem forgetful_saveFile (path : Bytes) : Forgetful fun w : World ν ↦ w.saveFile path := by
  intro past w
  simp only [saveFile, machine_precededBy, files_precededBy]
  cases w.machine.chunk with
  | none => exact forgetful_fail .noChunk past w
  | some chunk =>
    dsimp only
    rcases w.files.store path chunk.encode with ⟨cause | _, files⟩
    · exact forgetful_fail (.cannotWrite path cause) past { w with files }
    · rfl

theorem forgetful_perform (command : Command ν) : Forgetful fun w ↦ command.perform w := by
  intro past w
  cases command with
  | setGlobal name => exact forgetful_setGlobal name past w
  | getGlobal name => exact forgetful_getGlobal name past w
  | load bytes => exact forgetful_load bytes past w
  | loadFile path => exact forgetful_loadFile path past w
  | saveFile path => exact forgetful_saveFile path past w
  | raise status message => exact congrArg (Prod.mk _) (raise_precededBy past w status message)
  | push | pop | setTop | clearError | setListener | setLimits | writeFile => rfl

end World

namespace Separate

variable {b : Awaited}

/-! ## Separate frames -/

namespace Shared

/-- The shared part of the world with these events before its own. -/
def precededBy (s : Shared ν) : Shared ν :=
  { s with journal := past ++ s.journal }

@[simp] theorem limits_precededBy (s : Shared ν) : (s.precededBy past).limits = s.limits := rfl

theorem log_precededBy (s : Shared ν) (entry : LogEntry) :
    (s.precededBy past).log entry = (s.log entry).precededBy past := by
  simp [precededBy, log]

theorem fail_precededBy (s : Shared ν) (failure : Failure) :
    (s.precededBy past).fail failure = (s.fail failure).precededBy past := by
  have hjournal (added : List (Event ν)) :
      past ++ s.journal ++ added = past ++ (s.journal ++ added) :=
    Array.ext' (by simp)
  simp only [precededBy, fail, hjournal]

end Shared

def Config.precededBy (c : Config ν b) : Config ν b :=
  { c with shared := c.shared.precededBy past }

def Progress.precededBy : Progress ν b → Progress ν b
  | .more c => .more (c.precededBy past)
  | .ended s result => .ended (s.precededBy past) result

theorem finish_precededBy (s : Shared ν) (outcome : Outcome) (waiting : Waiting ν b .code) :
    Progress.finish (s.precededBy past) outcome waiting
      = (Progress.finish s outcome waiting).precededBy past := by
  cases waiting with
  | outside => rfl
  | entry caller rest =>
    cases outcome with
    | ok value => rfl
    | error trap =>
      simp only [Progress.finish, Shared.fail_precededBy]
      rfl

theorem ofTurn_precededBy (s : Shared ν) (waiting : Waiting ν b .code) (turn : Turn ν) :
    Progress.ofTurn (s.precededBy past) waiting turn
      = (Progress.ofTurn s waiting turn).precededBy past := by
  cases turn with
  | goes run globals => rfl
  | calls name function arguments run => rfl
  | ends outcome => exact finish_precededBy past s outcome waiting

theorem enter_precededBy (g : Ground) (s : Shared ν) (chunk : Chunk) (index : Nat)
    (arguments : List Value) (waiting : Waiting ν b .code) :
    Config.enter g (s.precededBy past) chunk index arguments waiting
      = (Config.enter g s chunk index arguments waiting).precededBy past := by
  simp only [Config.enter, Shared.limits_precededBy]
  split
  · rfl
  · exact finish_precededBy past s _ waiting

theorem done_precededBy (s : Shared ν) (status : Status) (window : List Value)
    (waiting : Waiting ν b .host) :
    Config.done (s.precededBy past) status window waiting
      = (Config.done s status window waiting).precededBy past := by
  cases waiting with
  | outside => rfl
  | program name caller rest =>
    simp only [Config.done, Shared.fail_precededBy]
    split <;> rfl
  | bytecode name run rest => exact ofTurn_precededBy past s rest (run.accept s name status window)

theorem call_precededBy (g : Ground) (s : Shared ν) (window : List Value)
    (waiting : Waiting ν b .host) (name : String) (arguments : Nat)
    (next : Reply → HostProgram ν) :
    Config.call g (s.precededBy past) window waiting name arguments next
      = (Config.call g s window waiting name arguments next).precededBy past := by
  have hdispatch : ((s.precededBy past).seen window).machine.dispatch name arguments
      = (s.seen window).machine.dispatch name arguments := rfl
  simp only [Config.call, hdispatch, Shared.fail_precededBy, Shared.log_precededBy,
    Shared.limits_precededBy, enter_precededBy]
  cases (s.seen window).machine.dispatch name arguments with
  | error failure => rfl
  | ok callee =>
    cases callee with
    | host function =>
      dsimp only
      split <;> rfl
    | code chunk index => rfl

theorem operate_precededBy (s : Shared ν) (window : List Value) (waiting : Waiting ν b .host)
    {operation : World ν → Reply × World ν} (next : Reply → HostProgram ν)
    (h : World.Forgetful operation) :
    Config.operate (s.precededBy past) window waiting operation next
      = (Config.operate s window waiting operation next).precededBy past := by
  have hseen : operation ((s.precededBy past).seen window) = _ := h past (s.seen window)
  simp only [Config.operate, hseen]
  rfl

/-- A step does the same whatever has been noted before. -/
theorem step_precededBy (g : Ground) (c : Config ν b) :
    (c.precededBy past).step g = (c.step g).precededBy past := by
  obtain ⟨s, control⟩ := c
  cases control with
  | code run waiting => exact ofTurn_precededBy past s waiting (run.turn s _ _)
  | host window program waiting =>
    cases program with
    | done status => exact done_precededBy past s status window waiting
    | ask query next => cases query <;> rfl
    | act command next =>
      exact congrArg _ (operate_precededBy past s window waiting next
        (World.forgetful_perform command))
    | register name arity body next =>
      exact congrArg _ (operate_precededBy past s window waiting next
        (World.forgetful_register name ⟨arity, body⟩))
    | call name arguments next =>
      exact call_precededBy past g s window waiting name arguments next
    | note note next =>
      simp [Config.precededBy, Shared.precededBy, Progress.precededBy, Config.step, Config.hostStep]

theorem after_precededBy (g : Ground) (p : Progress ν b) (n : Nat) :
    (p.precededBy past).after g n = (p.after g n).precededBy past := by
  induction n generalizing p with
  | zero => simp
  | succ n ih =>
    cases p with
    | more c =>
      rw [Progress.precededBy, Progress.after_more_succ, Progress.after_more_succ, step_precededBy,
        ih]
    | ended s result => rfl

theorem ends_precededBy_iff {g : Ground} {p : Progress ν b} {s : Shared ν} {result : Result b} :
    (p.precededBy past).Ends g s result ↔ ∃ s', s = s'.precededBy past ∧ p.Ends g s' result := by
  constructor
  · rintro ⟨n, hn⟩
    rw [after_precededBy] at hn
    cases hp : p.after g n with
    | more c =>
      rw [hp] at hn
      cases hn
    | ended s' result' =>
      rw [hp] at hn
      cases hn
      exact ⟨s', rfl, n, hp⟩
  · rintro ⟨s', rfl, n, hn⟩
    exact ⟨n, by rw [after_precededBy, hn]; rfl⟩

/-- A machine that is started with another past ends in the same way, having noted the same. -/
theorem exists_ends_of_ends (machine : Shared ν → Progress ν b)
    (hmachine : ∀ past s, machine (s.precededBy past) = (machine s).precededBy past) {g : Ground}
    {s s' : Shared ν} {result : Result b} (h : (machine s).Ends g s' result)
    (journal : Array (Event ν)) :
    ∃ s₀ : Shared ν, s' = s₀.precededBy s.journal ∧
      (machine { s with journal }).Ends g (s₀.precededBy journal) result := by
  -- Both are the machine that was started with no past at all, with a past put before it.
  have hs (journal : Array (Event ν)) :
      { s with journal } = ({ s with journal := #[] } : Shared ν).precededBy journal := by
    simp [Shared.precededBy]
  have hown :
      (machine ({ s with journal := #[] } : Shared ν)).precededBy s.journal = machine s := by
    rw [← hmachine, ← hs]
  rw [← hown, ends_precededBy_iff] at h
  obtain ⟨s₀, rfl, hends⟩ := h
  refine ⟨s₀, rfl, ?_⟩
  rw [hs, hmachine, ends_precededBy_iff]
  exact ⟨s₀, rfl, hends⟩

theorem codeMachine_precededBy (s : Shared ν) (below : List Value) (depth : Nat) (name : String)
    (chunk : Chunk) (index : Nat) (passed : List Value) :
    codeMachine (s.precededBy past) below depth name chunk index passed
      = (codeMachine s below depth name chunk index passed).precededBy past := by
  rw [codeMachine, Shared.log_precededBy, enter_precededBy]
  rfl

theorem hostMachine_precededBy (s : Shared ν) (name : String) (function : HostFunction ν)
    (passed : List Value) :
    hostMachine (s.precededBy past) name function passed
      = (hostMachine s name function passed).precededBy past := by
  rw [hostMachine, Shared.log_precededBy]
  rfl

end Separate

end Bytecode
