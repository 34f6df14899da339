import Bytecode.Proofs.Separate.Lockstep

/-!
# A callee in the place of a frame

Bytecode can be called in two ways. Host code starts a machine of its own on the function; a call
instruction puts one frame more on a run that exists. Here the first is turned into the second: the
machine that was started on a function is *grafted* onto a run that waits for a result. Its lowest
run gets the waiting frames below its own, and what was outside is now what the waiting run waits
for in turn.

Grafting commutes with steps, `step_graft`, as long as the callee has not ended. When it ends the
two ways differ, and `Progress.graft` says how: the waiting run takes a result as its top operand,
and a trap ends it too.

A result can be taken only by a run of the same chunk as the callee's. This is the one thing that
has to be kept along the way (`Config.Fits`); no other run that is nested in between matters.
-/

namespace Bytecode.Separate

variable {ν : Type} {b : Awaited}

/-! ## Runs with more frames below -/

theorem stacked_append (inner outer : List Frame) :
    stacked (inner ++ outer) = stacked outer ++ stacked inner := by
  induction inner with
  | nil => simp
  | cons f inner ih => simp [ih]

namespace Run

/-- The run with these frames below its own. -/
def under (frames : List Frame) (run : Run) : Run :=
  { run with outer := run.outer ++ frames }

@[simp] theorem under_nil (run : Run) : run.under [] = run := by
  simp [under]

section Under

variable (frames : List Frame) (run : Run)

@[simp] theorem chunk_under : (run.under frames).chunk = run.chunk := rfl

@[simp] theorem frame_under : (run.under frames).frame = run.frame := rfl

@[simp] theorem topOperands_under (count : Nat) :
    (run.under frames).topOperands count = run.topOperands count := rfl

@[simp] theorem dropOperands_under (count : Nat) :
    (run.under frames).dropOperands count = (run.dropOperands count).under frames := rfl

@[simp] theorem goto_under (pc : Nat) :
    (run.under frames).goto pc = (run.goto pc).under frames := rfl

@[simp] theorem trap_under (kind : TrapKind) :
    ((run.under frames).trap kind : Turn ν) = run.trap kind := rfl

theorem values_under : (run.under frames).values = stacked frames ++ run.values := by
  simp [values, under, stacked_append]

theorem depth_under : (run.under frames).depth = frames.length + run.depth := by
  simp only [depth, under, List.length_append]
  omega

end Under

end Run

/-- What an instruction leads to if these frames stand below those of the run: a result is taken by
the first of them. -/
def Turn.under (chunk : Chunk) (globals : Globals) (frames : List Frame) : Turn ν → Turn ν
  | .goes run globals => .goes (run.under frames) globals
  | .calls name function arguments run => .calls name function arguments (run.under frames)
  | .ends (.error trap) => .ends (.error trap)
  | .ends (.ok value) =>
    match frames with
    | [] => .ends (.ok value)
    | caller :: outer =>
      .goes ⟨chunk, { caller with operands := value :: caller.operands }, outer⟩ globals

@[simp] theorem Turn.under_nil (chunk : Chunk) (globals : Globals) (turn : Turn ν) :
    turn.under chunk globals [] = turn := by
  cases turn with
  | goes run globals => simp [under]
  | calls name function arguments run => simp [under]
  | ends outcome => cases outcome <;> rfl

section Under

variable (s : Shared ν) (frames : List Frame) (run : Run) (below depth : Nat)

theorem callTurn_under (callee : Nat) :
    (run.under frames).callTurn s below depth callee
      = (run.callTurn s (below + (stacked frames).length) (depth + frames.length) callee).under
          run.chunk s.globals frames := by
  simp only [Run.callTurn, Run.chunk_under, Run.frame_under, Run.topOperands_under,
    Run.dropOperands_under, Run.goto_under, Run.trap_under, Run.values_under, Run.depth_under,
    List.length_append, ← Nat.add_assoc]
  split
  · rfl
  · split <;> rfl

theorem hostTurn_under (i : Instruction) :
    (run.under frames).hostTurn s depth i
      = (run.hostTurn s (depth + frames.length) i).under run.chunk s.globals frames := by
  simp only [Run.hostTurn, Run.chunk_under, Run.frame_under, Run.topOperands_under,
    Run.dropOperands_under, Run.trap_under, Run.depth_under, ← Nat.add_assoc]
  split
  · rfl
  split
  · rfl
  split
  · rfl
  split
  · rfl
  split <;> rfl

theorem returnTurn_under :
    (run.under frames).returnTurn s = (run.returnTurn s).under run.chunk s.globals frames := by
  simp only [Run.returnTurn, Run.under]
  cases run.frame.operands with
  | nil => rfl
  | cons value operands =>
    cases run.outer with
    | nil => cases frames <;> rfl
    | cons frame outer => rfl

/-- An instruction does the same in its frame whatever frames stand below. -/
theorem turn_under :
    (run.under frames).turn s below depth
      = (run.turn s (below + (stacked frames).length) (depth + frames.length)).under run.chunk
          s.globals frames := by
  have hunder : below + (stacked (run.under frames).outer).length
      = below + (stacked frames).length + (stacked run.outer).length := by
    rw [Run.under, stacked_append, List.length_append, ← Nat.add_assoc]
  simp only [Run.turn, Run.chunk_under, Run.frame_under, Run.trap_under, hunder, callTurn_under,
    hostTurn_under, returnTurn_under]
  split
  · rfl
  split
  · rfl
  split <;> rfl

theorem accept_under (name : String) (status : Status) (results : List Value) :
    (run.under frames).accept s name status results
      = (run.accept s name status results).under run.chunk s.globals frames := by
  simp only [Run.accept, Run.trap_under, Run.frame_under]
  split
  · rfl
  split <;> rfl

end Under

/-! ## Grafting -/

/-- A run that has executed a call instruction and waits for the result. -/
structure CallSite (ν : Type) (b : Awaited) where
  chunk : Chunk
  /-- The frame that will take the result. -/
  caller : Frame
  outer : List Frame
  /-- What the run is waited for by. -/
  waiting : Waiting ν b .code

namespace CallSite

variable (k : CallSite ν b)

def frames : List Frame :=
  k.caller :: k.outer

/-- The run with its result. -/
def receive (value : Value) : Run :=
  ⟨k.chunk, { k.caller with operands := value :: k.caller.operands }, k.outer⟩

/-- What is outside of the callee as far as the resource limits are concerned. -/
def ground (g : Ground) : Ground :=
  ⟨k.waiting.values g.values ++ stacked k.frames, k.waiting.depth g.depth + k.frames.length⟩

end CallSite

namespace Waiting

variable (k : CallSite ν b)

/-- The frames of the site that stand below a run for which this waits. -/
def framesBelow : {a : Awaited} → Waiting ν .code a → List Frame
  | _, .outside => k.frames
  | _, .program _ _ _ | _, .bytecode _ _ _ | _, .entry _ _ => []

/-- The chain with the site in the place of whoever is outside. -/
def graft : {a : Awaited} → Waiting ν .code a → Waiting ν b a
  | _, .outside => k.waiting
  | _, .program name caller rest => .program name caller rest.graft
  | _, .bytecode name run rest => .bytecode name (run.under (rest.framesBelow k)) rest.graft
  | _, .entry caller rest => .entry caller rest.graft

@[simp] theorem framesBelow_host (waiting : Waiting ν .code .host) :
    waiting.framesBelow k = [] := by
  cases waiting <;> rfl

/-- Nothing moves: what stood on the ground stands on the site. -/
theorem values_graft (g : Ground) {a : Awaited} (waiting : Waiting ν .code a) :
    (waiting.graft k).values g.values ++ stacked (waiting.framesBelow k)
      = waiting.values (k.ground g).values := by
  induction waiting with
  | outside => rfl
  | program name caller rest ih | entry caller rest ih =>
    rw [framesBelow_host, stacked_nil, List.append_nil] at ih
    rw [values, ← ih]
    exact List.append_nil _
  | bytecode name run rest ih =>
    rw [values, ← ih, List.append_assoc, ← Run.values_under]
    exact List.append_nil _

theorem depth_graft (g : Ground) {a : Awaited} (waiting : Waiting ν .code a) :
    (waiting.graft k).depth g.depth + (waiting.framesBelow k).length
      = waiting.depth (k.ground g).depth := by
  induction waiting with
  | outside => rfl
  | program name caller rest ih | entry caller rest ih =>
    rw [framesBelow_host] at ih
    rw [depth, ← ih]
    rfl
  | bytecode name run rest ih =>
    rw [depth, ← ih, Nat.add_assoc _ _ run.depth, ← Run.depth_under]
    rfl

/-- The run is one of the site's chunk, if it returns to the site. -/
def Takes (chunk : Chunk) : {a : Awaited} → Waiting ν .code a → Prop
  | _, .outside => chunk = k.chunk
  | _, .program _ _ _ | _, .bytecode _ _ _ | _, .entry _ _ => True

/-- The run that returns to the site is one of its chunk. -/
def Fits : {a : Awaited} → Waiting ν .code a → Prop
  | _, .outside => True
  | _, .program _ _ rest => rest.Fits
  | _, .bytecode _ run rest => rest.Takes k run.chunk ∧ rest.Fits
  | _, .entry _ rest => rest.Fits

end Waiting

namespace Config

variable (k : CallSite ν b)

/-- The configuration with the site in the place of whoever is outside. -/
def graft : Config ν .code → Config ν b
  | ⟨s, .host window program waiting⟩ => ⟨s, .host window program (waiting.graft k)⟩
  | ⟨s, .code run waiting⟩ => ⟨s, .code (run.under (waiting.framesBelow k)) (waiting.graft k)⟩

def Fits : Config ν .code → Prop
  | ⟨_, .host _ _ waiting⟩ => waiting.Fits k
  | ⟨_, .code run waiting⟩ => waiting.Takes k run.chunk ∧ waiting.Fits k

end Config

namespace Progress

variable (k : CallSite ν b)

/-- The waiting run takes a result, and ends in a trap of the callee. -/
def graft : Progress ν .code → Progress ν b
  | .more c => .more (c.graft k)
  | .ended s (.code (.ok value)) => .more ⟨s, .code (k.receive value) k.waiting⟩
  | .ended s (.code (.error trap)) => .finish s (.error trap) k.waiting

def Fits : Progress ν .code → Prop
  | .more c => c.Fits k
  | .ended _ _ => True

end Progress

/-! ## Steps of a grafted machine -/

section Steps

variable (k : CallSite ν b) (g : Ground)

theorem finish_graft (s : Shared ν) (outcome : Outcome) (caller : Suspended ν)
    (rest : Waiting ν .code .host) :
    Progress.finish s outcome (.entry caller (rest.graft k))
      = (Progress.finish s outcome (.entry caller rest)).graft k := by
  cases outcome <;> rfl

theorem ofTurn_graft (s : Shared ν) {chunk : Chunk} {waiting : Waiting ν .code .code}
    (turn : Turn ν) (h : waiting.Takes k chunk) :
    Progress.ofTurn s (waiting.graft k) (turn.under chunk s.globals (waiting.framesBelow k))
      = (Progress.ofTurn s waiting turn).graft k := by
  cases waiting with
  | outside =>
    cases turn with
    | goes run globals => rfl
    | calls name function arguments run => rfl
    | ends outcome =>
      cases outcome with
      | ok value =>
        cases h
        rfl
      | error trap => rfl
  | entry caller rest =>
    rw [Waiting.framesBelow, Turn.under_nil]
    cases turn with
    | goes run globals => simp [Progress.ofTurn, Progress.graft, Config.graft, Waiting.graft,
        Waiting.framesBelow]
    | calls name function arguments run => simp [Progress.ofTurn, Progress.graft, Config.graft,
        Waiting.graft, Waiting.framesBelow]
    | ends outcome => exact finish_graft k s outcome caller rest

theorem done_graft (s : Shared ν) (status : Status) (window : List Value)
    {waiting : Waiting ν .code .host} (h : waiting.Fits k) :
    Config.done s status window (waiting.graft k)
      = (Config.done s status window waiting).graft k := by
  cases waiting with
  | program name caller rest =>
    rw [Waiting.graft, Config.done, Config.done]
    split <;> rfl
  | bytecode name run rest =>
    rw [Waiting.graft, Config.done, Config.done, accept_under]
    exact ofTurn_graft k s _ h.1

theorem enter_graft (s : Shared ν) (chunk : Chunk) (index : Nat) (arguments : List Value)
    (caller : Suspended ν) (rest : Waiting ν .code .host) :
    Config.enter g s chunk index arguments (.entry caller (rest.graft k))
      = (Config.enter (k.ground g) s chunk index arguments (.entry caller rest)).graft k := by
  have hvalues := Waiting.values_graft k g (.entry caller rest)
  have hdepth := Waiting.depth_graft k g (.entry caller rest)
  simp only [Waiting.graft, Waiting.framesBelow, stacked_nil, List.append_nil, List.length_nil,
    Nat.add_zero] at hvalues hdepth
  rw [Config.enter, Config.enter, hvalues, hdepth]
  split
  · simp [Progress.graft, Config.graft, Waiting.graft, Waiting.framesBelow]
  · exact finish_graft k s _ caller rest

theorem call_graft (s : Shared ν) (window : List Value) (waiting : Waiting ν .code .host)
    (name : String) (arguments : Nat) (next : Reply → HostProgram ν) :
    Config.call g s window (waiting.graft k) name arguments next
      = (Config.call (k.ground g) s window waiting name arguments next).graft k := by
  have hdepth := Waiting.depth_graft k g waiting
  rw [Waiting.framesBelow_host, List.length_nil, Nat.add_zero] at hdepth
  simp only [Config.call, hdepth, enter_graft]
  split
  · rfl
  · split <;> rfl
  · rfl

/-- As long as the callee has not ended, it makes the same steps above the frames of the site as on
its own. -/
theorem step_graft {c : Config ν .code} (h : c.Fits k) :
    (c.graft k).step g = (c.step (k.ground g)).graft k := by
  obtain ⟨s, control⟩ := c
  cases control with
  | code run waiting =>
    have hvalues := congrArg List.length (waiting.values_graft k g)
    rw [List.length_append] at hvalues
    rw [Config.graft, Config.step, Config.step, turn_under, hvalues, waiting.depth_graft k g]
    exact ofTurn_graft k s _ h.1
  | host window program waiting =>
    cases program with
    | done status => exact done_graft k s status window h
    | call name arguments next => exact call_graft k g s window waiting name arguments next
    | ask | act | register | note => rfl

/-! ## What fits stays so -/

/-- The run that goes on is one of this chunk. -/
def Turn.Keeps (chunk : Chunk) : Turn ν → Prop
  | .goes run _ | .calls _ _ _ run => run.chunk = chunk
  | .ends _ => True

theorem keeps_callTurn (s : Shared ν) (below depth callee : Nat) (run : Run) :
    (run.callTurn s below depth callee).Keeps run.chunk := by
  unfold Run.callTurn
  dsimp only
  split
  · trivial
  split
  · trivial
  · rfl

theorem keeps_hostTurn (s : Shared ν) (depth : Nat) (i : Instruction) (run : Run) :
    (run.hostTurn s depth i).Keeps run.chunk := by
  unfold Run.hostTurn
  dsimp only
  split
  · trivial
  split
  · trivial
  split
  · trivial
  split
  · trivial
  split
  · trivial
  · rfl

theorem keeps_returnTurn (s : Shared ν) (run : Run) : (run.returnTurn s).Keeps run.chunk := by
  unfold Run.returnTurn
  split
  · trivial
  split
  · trivial
  · rfl

theorem keeps_turn (s : Shared ν) (below depth : Nat) (run : Run) :
    (run.turn s below depth).Keeps run.chunk := by
  unfold Run.turn
  dsimp only
  split
  · trivial
  split
  · trivial
  split
  · rfl
  · rfl
  · exact keeps_callTurn s below depth _ run
  · exact keeps_hostTurn s depth _ run
  · exact keeps_returnTurn s run

theorem keeps_accept (s : Shared ν) (name : String) (status : Status) (results : List Value)
    (run : Run) : (run.accept s name status results).Keeps run.chunk := by
  unfold Run.accept
  split
  · trivial
  split
  · rfl
  · trivial

theorem fits_finish {s : Shared ν} (outcome : Outcome) {waiting : Waiting ν .code .code}
    (h : waiting.Fits k) : (Progress.finish s outcome waiting).Fits k := by
  cases waiting with
  | outside => trivial
  | entry caller rest => cases outcome <;> exact h

theorem fits_ofTurn {s : Shared ν} {chunk : Chunk} {waiting : Waiting ν .code .code} {turn : Turn ν}
    (hkeeps : turn.Keeps chunk) (htakes : waiting.Takes k chunk) (h : waiting.Fits k) :
    (Progress.ofTurn s waiting turn).Fits k := by
  cases turn with
  | goes run globals =>
    cases hkeeps
    exact ⟨htakes, h⟩
  | calls name function arguments run =>
    cases hkeeps
    exact ⟨htakes, h⟩
  | ends outcome => exact fits_finish k outcome h

theorem fits_enter (s : Shared ν) (chunk : Chunk) (index : Nat) (arguments : List Value)
    {waiting : Waiting ν .code .code} (htakes : waiting.Takes k chunk) (h : waiting.Fits k) :
    (Config.enter g s chunk index arguments waiting).Fits k := by
  rw [Config.enter]
  split
  · exact ⟨htakes, h⟩
  · exact fits_finish k _ h

theorem fits_done (s : Shared ν) (status : Status) (window : List Value)
    {waiting : Waiting ν .code .host} (h : waiting.Fits k) :
    (Config.done s status window waiting).Fits k := by
  cases waiting with
  | program name caller rest =>
    rw [Config.done]
    split <;> exact h
  | bytecode name run rest => exact fits_ofTurn k (keeps_accept s name status window run) h.1 h.2

theorem fits_call (s : Shared ν) (window : List Value) {waiting : Waiting ν .code .host}
    (name : String) (arguments : Nat) (next : Reply → HostProgram ν) (h : waiting.Fits k) :
    (Config.call g s window waiting name arguments next).Fits k := by
  rw [Config.call]
  split
  · exact h
  · dsimp only
    split <;> exact h
  · exact fits_enter k g _ _ _ _ trivial h

theorem fits_step {c : Config ν .code} (h : c.Fits k) : (c.step g).Fits k := by
  obtain ⟨s, control⟩ := c
  cases control with
  | code run waiting => exact fits_ofTurn k (keeps_turn s _ _ run) h.1 h.2
  | host window program waiting =>
    cases program with
    | done status => exact fits_done k s status window h
    | call name arguments next => exact fits_call k g s window name arguments next h
    | ask | act | register | note => exact h

/-! ## Whole runs -/

theorem after_graft_of_more {p : Progress ν .code} {n : Nat} {d : Config ν .code} (h : p.Fits k)
    (hn : p.after (k.ground g) n = .more d) :
    (p.graft k).after g n = .more (d.graft k) ∧ d.Fits k := by
  induction n generalizing p with
  | zero =>
    rw [Progress.after_zero] at hn ⊢
    cases hn
    exact ⟨rfl, h⟩
  | succ n ih =>
    cases p with
    | more c =>
      rw [Progress.graft, Progress.after_more_succ, step_graft k g h]
      exact ih (fits_step k _ h) hn
    | ended s result => cases hn

end Steps

end Bytecode.Separate
