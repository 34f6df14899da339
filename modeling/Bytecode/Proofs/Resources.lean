import Bytecode.Proofs.Discipline
import Bytecode.Proofs.LoadGate

/-!
# Verified bytecode stays within the limits

Two limits bound what bytecode may use: how many calls are nested, and up to which height the stack
grows. They are tested where a frame is entered, where a host function is called and where an
operand is pushed. They are not tested where a host function leaves its result or a frame returns
one, so the stack may end up higher than its limit.

Not by much: while nobody changes the limits, every live frame of a run and of all that it calls has
its operands begin within the limit, and a verified function never has more than 1024 of them.

## The invariant

Floors are nested: a frame has its operands below the locals of every frame further in, whatever
host code lies between. So it is enough to follow the innermost floor (`Run.floor`), which is tested
when a frame is entered and only goes down when one is left; and likewise the depth.

Outside the run the limits may have been others. The frames out there are below it all the same, and
as its first frame was let in, they are within the limits it has.
-/

namespace Bytecode

namespace Separate

variable {ν : Type} {b : Awaited}

/-! ## Floors -/

/-- Where the operands of the executing frame of a run begin that lies above `below` values. -/
def Run.floor (below : Nat) (run : Run) : Nat :=
  below + (stacked run.outer).length + run.frame.locals.length

theorem Run.length_values (below : Nat) (run : Run) :
    below + run.values.length = run.floor below + run.frame.operands.length := by
  simp only [values, Frame.values, floor, List.length_append, List.length_reverse]
  omega

/-- A run that was called when `depth` calls were live keeps the limits. -/
structure Run.Within (limits : Limits) (below depth : Nat) (run : Run) : Prop where
  depth_le : depth + run.depth ≤ limits.callDepth
  floor_le : run.floor below ≤ limits.stackDepth

/-- All frames that wait have their operands begin below `limit`. -/
def Waiting.Within (limit : Nat) (ground : List Value) : {a : Awaited} → Waiting ν b a → Prop
  | _, .outside => ground.length ≤ limit
  | _, .program _ _ rest => rest.Within limit ground
  | _, .bytecode _ run rest =>
    run.floor (rest.values ground).length ≤ limit ∧ rest.Within limit ground
  | _, .entry _ rest => rest.Within limit ground

def Control.Within (limits : Limits) (g : Ground) : Control ν b → Prop
  | .host _ _ waiting =>
    waiting.depth g.depth ≤ limits.callDepth ∧ waiting.Within limits.stackDepth g.values
  | .code run waiting =>
    run.Within limits (waiting.values g.values).length (waiting.depth g.depth) ∧
      waiting.Within limits.stackDepth g.values

def Progress.Within (limits : Limits) (g : Ground) : Progress ν b → Prop
  | .more c => c.control.Within limits g
  | .ended _ _ => True

/-! ## Instructions -/

/-- What an instruction leads to keeps the limits. A host function counts as one call more. -/
def Turn.Within (limits : Limits) (below depth : Nat) : Turn ν → Prop
  | .goes run _ => run.Within limits below depth
  | .calls _ _ _ run => run.Within limits below (depth + 1)
  | .ends _ => True

theorem Frame.enter_ok {limits : Limits} {chunk : Chunk} {function under depth : Nat}
    {arguments : List Value} {f : Frame}
    (h : Frame.enter limits chunk function under depth arguments = .ok f) :
    depth < limits.callDepth ∧ under + f.locals.length ≤ limits.stackDepth ∧ f.operands = [] := by
  rw [Frame.enter] at h
  split at h
  · cases h
  split at h
  · cases h
  rename_i hdepth
  split at h
  · cases h
  · rename_i hstack
    cases h
    rw [length_freshLocals]
    exact ⟨Nat.lt_of_not_le hdepth, Nat.le_of_not_lt hstack, rfl⟩

section Turns

variable {s : Shared ν} {run : Run} {below depth : Nat}

/-- Floor and depth do not depend on operands, nor on where the frame goes on. -/
theorem Run.Within.frame (h : run.Within s.limits below depth) {f : Frame}
    (hlocals : f.locals.length = run.frame.locals.length) :
    Run.Within s.limits below depth { run with frame := f } where
  depth_le := h.depth_le
  floor_le := by
    rw [floor, hlocals]
    exact h.floor_le

theorem within_callTurn (callee : Nat) : (run.callTurn s below depth callee).Within s.limits below
    depth := by
  rw [Run.callTurn]
  split
  · trivial
  dsimp only
  split
  · trivial
  rename_i frame henter
  obtain ⟨hdepth, hstack, -⟩ := Frame.enter_ok henter
  exact {
    depth_le := hdepth
    floor_le := by
      simp only [Run.floor, stacked_cons, List.length_append]
      simp only [Run.values, List.length_append] at hstack
      exact hstack }

theorem within_hostTurn (i : Instruction) (h : run.Within s.limits below depth) :
    (run.hostTurn s depth i).Within s.limits below depth := by
  rw [Run.hostTurn]
  split
  · trivial
  dsimp only
  split
  · trivial
  split
  · trivial
  split
  · trivial
  split
  · trivial
  rename_i hdepth
  have hfloor : (run.dropOperands i.arg2.toNat).floor below ≤ s.limits.stackDepth := h.floor_le
  have hcalls : depth + 1 + (run.dropOperands i.arg2.toNat).depth ≤ s.limits.callDepth := by
    change depth + 1 + run.depth ≤ s.limits.callDepth
    omega
  exact ⟨hcalls, hfloor⟩

theorem within_returnTurn (h : run.Within s.limits below depth) :
    (run.returnTurn s).Within s.limits below depth := by
  obtain ⟨hdepth, hfloor⟩ := h
  rw [Run.returnTurn]
  split
  · trivial
  split
  · trivial
  rename_i frame outer houter
  -- The caller's floor is below all of its own values, and these are below the floor that is left.
  simp only [Run.floor, Run.depth, houter, stacked_cons, Frame.values, List.length_append,
    List.length_cons] at hdepth hfloor
  exact {
    depth_le := by
      simp only [Run.depth]
      omega
    floor_le := by
      simp only [Run.floor]
      omega }

theorem within_turn (h : run.Within s.limits below depth) :
    (run.turn s below depth).Within s.limits below depth := by
  rw [Run.turn]
  split
  · trivial
  rename_i i _
  have hstays := @exec_stays s.limits.stackDepth s.globals run.chunk
    (below + (stacked run.outer).length + run.frame.locals.length) i run.frame
  dsimp only
  split
  · trivial
  rename_i hexec
  rw [hexec] at hstays
  obtain ⟨-, -, hlocals, -⟩ := hstays
  split
  · exact h.frame hlocals
  · exact h.frame hlocals
  · exact within_callTurn _
  · exact within_hostTurn i h
  · exact within_returnTurn h

theorem within_accept (name : String) (status : Status) (results : List Value)
    (h : run.Within s.limits below depth) :
    (run.accept s name status results).Within s.limits below depth := by
  unfold Run.accept
  split
  · trivial
  split
  · exact h.frame rfl
  · trivial

end Turns

/-! ## Steps -/

section Steps

variable {limits : Limits} {g : Ground} {s : Shared ν}

theorem within_finish (outcome : Outcome) {waiting : Waiting ν b .code}
    (hdepth : waiting.depth g.depth ≤ limits.callDepth)
    (hwaiting : waiting.Within limits.stackDepth g.values) :
    (Progress.finish s outcome waiting).Within limits g := by
  cases waiting with
  | outside => trivial
  | entry caller rest =>
    cases outcome with
    | ok value => exact ⟨hdepth, hwaiting⟩
    | error trap => exact ⟨hdepth, hwaiting⟩

theorem within_ofTurn {waiting : Waiting ν b .code} {turn : Turn ν}
    (hdepth : waiting.depth g.depth ≤ limits.callDepth)
    (hturn : turn.Within limits (waiting.values g.values).length (waiting.depth g.depth))
    (hwaiting : waiting.Within limits.stackDepth g.values) :
    (Progress.ofTurn s waiting turn).Within limits g := by
  cases turn with
  | goes run globals => exact ⟨hturn, hwaiting⟩
  | calls name function arguments run =>
    refine ⟨?_, hturn.floor_le, hwaiting⟩
    have hcalls := hturn.depth_le
    rw [Waiting.depth]
    omega
  | ends outcome => exact within_finish outcome hdepth hwaiting

theorem within_enter (chunk : Chunk) (index : Nat) (arguments : List Value)
    {waiting : Waiting ν b .code} (hdepth : waiting.depth g.depth ≤ s.limits.callDepth)
    (hwaiting : waiting.Within s.limits.stackDepth g.values) :
    (Config.enter g s chunk index arguments waiting).Within s.limits g := by
  rw [Config.enter]
  split
  · rename_i frame henter
    obtain ⟨hcalls, hstack, -⟩ := Frame.enter_ok henter
    exact ⟨⟨hcalls, hstack⟩, hwaiting⟩
  · exact within_finish _ hdepth hwaiting

theorem within_done (status : Status) (window : List Value) {waiting : Waiting ν b .host}
    (hdepth : waiting.depth g.depth ≤ s.limits.callDepth)
    (hwaiting : waiting.Within s.limits.stackDepth g.values) :
    (Config.done s status window waiting).Within s.limits g := by
  cases waiting with
  | outside => trivial
  | program name caller rest =>
    rw [Waiting.depth] at hdepth
    rw [Config.done]
    split
    · exact ⟨Nat.le_of_succ_le hdepth, hwaiting⟩
    · exact ⟨Nat.le_of_succ_le hdepth, hwaiting⟩
  | bytecode name run rest =>
    obtain ⟨hfloor, hrest⟩ := hwaiting
    rw [Waiting.depth] at hdepth
    have hrun : run.Within s.limits (rest.values g.values).length (rest.depth g.depth) :=
      ⟨Nat.le_of_succ_le hdepth, hfloor⟩
    exact within_ofTurn (by omega) (within_accept name status window hrun) hrest

theorem within_call (window : List Value) {waiting : Waiting ν b .host} (name : String)
    (arguments : Nat) (next : Reply → HostProgram ν)
    (hdepth : waiting.depth g.depth ≤ s.limits.callDepth)
    (hwaiting : waiting.Within s.limits.stackDepth g.values) :
    (Config.call g s window waiting name arguments next).Within s.limits g := by
  rw [Config.call]
  dsimp only
  split
  · exact ⟨hdepth, hwaiting⟩
  · split
    · exact ⟨hdepth, hwaiting⟩
    · rename_i hlt
      exact ⟨Nat.lt_of_not_le hlt, hwaiting⟩
  · exact within_enter (s := s.log _) _ _ _ hdepth hwaiting

/-- Every step keeps the limits under which it is made. -/
theorem within_step {c : Config ν b} (h : c.control.Within c.shared.limits g) :
    (c.step g).Within c.shared.limits g := by
  obtain ⟨s, control⟩ := c
  cases control with
  | code run waiting =>
    obtain ⟨hrun, hwaiting⟩ := h
    have hdepth := hrun.depth_le
    exact within_ofTurn (by omega) (within_turn hrun) hwaiting
  | host window program waiting =>
    cases program with
    | done status => exact within_done status window h.1 h.2
    | call name arguments next => exact within_call window name arguments next h.1 h.2
    | ask | act | register | note => exact h

/-- As long as the limits are not changed they are kept. -/
theorem within_after {p : Progress ν b} (h : p.Within limits g) {n : Nat}
    (hlimits : ∀ m < n, ∀ c, p.after g m = .more c → c.shared.limits = limits) :
    (p.after g n).Within limits g := by
  induction n generalizing p with
  | zero =>
    rw [Progress.after_zero]
    exact h
  | succ n ih =>
    cases p with
    | ended s result => trivial
    | more c =>
      have hc := hlimits 0 (Nat.zero_lt_succ n) c rfl
      have hstep : (c.step g).Within limits g := by
        rw [← hc] at h ⊢
        exact within_step h
      exact ih hstep fun m hm c' hc' ↦ hlimits (m + 1) (Nat.succ_lt_succ hm) c' hc'

end Steps

/-! ## Floors of placed frames -/

theorem floor_le_of_mem_placedFrames {below : Nat} {frames : List Frame} {frame : Bytecode.Frame}
    (h : frame ∈ placedFrames below frames) : frame.floor ≤ below + (stacked frames).length := by
  induction frames with
  | nil => cases h
  | cons f outer ih =>
    rw [stacked_cons, List.length_append, Frame.values, List.length_append]
    rcases List.mem_cons.mp h with rfl | h
    · simp only [Frame.placed]
      omega
    · have := ih h
      omega

theorem Run.floor_le_of_mem_frames {run : Run} {below before : Nat}
    {resume : Reply → HostProgram ν} {frame : Bytecode.Frame}
    (h : frame ∈ (run.placed below before resume).frames) : frame.floor ≤ run.floor below := by
  rcases List.mem_cons.mp h with rfl | h
  · exact Nat.le_refl _
  · exact Nat.le_trans (floor_le_of_mem_placedFrames h) (Nat.le_add_right _ _)

/-- The frames of open calls have their operands begin at most at `limit`. -/
def FloorsWithin (limit : Nat) (calls : List (HostCall ν)) : Prop :=
  ∀ call ∈ calls, ∀ frame ∈ call.caller.frames, frame.floor ≤ limit

namespace Waiting

theorem floorsWithin_calls {o : Outside ν} {limit : Nat} (hout : FloorsWithin limit o.calls)
    {a : Awaited} {waiting : Waiting ν b a} (h : waiting.Within limit o.values) :
    FloorsWithin limit (waiting.calls o) := by
  induction waiting with
  | outside => exact hout
  | entry caller rest ih => exact ih h
  | program name caller rest ih =>
    intro call hcall frame hframe
    rcases List.mem_cons.mp hcall with rfl | hcall
    · cases hframe
    · exact ih h call hcall frame hframe
  | bytecode name run rest ih =>
    intro call hcall frame hframe
    rcases List.mem_cons.mp hcall with rfl | hcall
    · exact Nat.le_trans (Run.floor_le_of_mem_frames hframe) h.1
    · exact ih h.2 call hcall frame hframe

theorem Within.ground_le {limit : Nat} {ground : List Value} {a : Awaited} {waiting : Waiting ν b a}
    (h : waiting.Within limit ground) : ground.length ≤ limit := by
  induction waiting with
  | outside => exact h
  | program name caller rest ih | entry caller rest ih => exact ih h
  | bytecode name run rest ih => exact ih h.2

/-- Whatever waits lies within its own values. -/
theorem within_length_values {limit : Nat} (ground : List Value) {a : Awaited}
    (waiting : Waiting ν b a) (h : (waiting.values ground).length ≤ limit) :
    waiting.Within limit ground := by
  induction waiting with
  | outside => exact h
  | program name caller rest ih | entry caller rest ih =>
    rw [values, List.length_append] at h
    exact ih (by omega)
  | bytecode name run rest ih =>
    rw [values, List.length_append, Run.length_values] at h
    refine ⟨by omega, ih ?_⟩
    rw [Run.floor] at h
    omega

end Waiting

theorem Control.Within.ground_le {limits : Limits} {g : Ground} {control : Control ν b}
    (h : control.Within limits g) : g.values.length ≤ limits.stackDepth := by
  cases control with
  | host window program waiting => exact h.2.ground_le
  | code run waiting => exact h.2.ground_le

/-- The frames of open calls lie within the values that wait for them. -/
theorem Waiting.floorsWithin_of_length_le {limit : Nat} {a : Awaited} (waiting : Waiting ν b a)
    (h : (waiting.values []).length ≤ limit) : FloorsWithin limit (waiting.calls .nothing) :=
  floorsWithin_calls (o := .nothing) (fun _ hcall ↦ absurd hcall List.not_mem_nil)
    (within_length_values [] waiting h)

/-! ## How high one instruction makes the stack -/

/-- An instruction leaves no more operands than it found, or the stack ends within the limit. Only a
call of a host function leads to one. -/
def Grows (limit under : Nat) (f : Frame) (i : Instruction) :
    Except TrapKind (Flow × Frame × Globals) → Prop
  | .error _ => True
  | .ok (flow, after, _) =>
    (after.operands.length ≤ f.operands.length ∨ under + after.operands.length ≤ limit) ∧
      (flow = .host → i.opcode = .callHost)

section Instruction

variable {limit under : Nat} {f : Frame} {i : Instruction} {globals : Globals}

theorem Grows.bind {α : Type} {x : Except TrapKind α}
    {k : α → Except TrapKind (Flow × Frame × Globals)}
    (h : ∀ a, x = .ok a → Grows limit under f i (k a)) : Grows limit under f i (x >>= k) := by
  cases x with
  | ok a => exact h a rfl
  | error kind => trivial

theorem length_le_of_pop {operands rest : List Value} {value : Value}
    (h : pop operands = .ok (value, rest)) : rest.length ≤ operands.length := by
  cases operands with
  | nil => cases h
  | cons top operands =>
    cases h
    exact Nat.le_succ _

theorem grows_push (operands : List Value) (value : Value) :
    Grows limit under f i (do
      let pushed ← f.push limit under operands value
      return (.next, pushed, globals)) := by
  rw [Frame.push]
  split
  · trivial
  · rename_i hlimit
    exact ⟨.inr (Nat.lt_of_not_le hlimit), fun hflow ↦ by cases hflow⟩

/-- An operand is pushed only below the limit, and nothing else makes the stack higher. -/
theorem exec_grows (chunk : Chunk) :
    Grows limit under f i (f.exec chunk limit under globals i) := by
  unfold Frame.exec
  cases hop : i.opcode with
  | nop | jump | call | ret => exact ⟨.inl (Nat.le_refl _), nofun⟩
  | callHost => exact ⟨.inl (Nat.le_refl _), fun _ ↦ hop⟩
  | const =>
    cases chunk.constants[i.arg1.toNat]? with
    | some value => exact grows_push _ value
    | none => trivial
  | pop => exact .bind fun _ hpop ↦ ⟨.inl (length_le_of_pop hpop), nofun⟩
  | dup | isType | loadLocal => exact .bind fun _ _ ↦ grows_push _ _
  | storeLocal => exact .bind fun _ _ ↦ .bind fun _ hpop ↦ ⟨.inl (length_le_of_pop hpop), nofun⟩
  | getGlobal =>
    refine .bind fun bytes _ ↦ ?_
    cases globals.get? bytes with
    | some value => exact grows_push _ value
    | none => trivial
  | setGlobal => exact .bind fun _ _ ↦ .bind fun _ hpop ↦ ⟨.inl (length_le_of_pop hpop), nofun⟩
  | unary op => exact .bind fun _ _ ↦ .bind fun _ _ ↦ grows_push _ _
  | binary op => exact .bind fun _ _ ↦ .bind fun _ _ ↦ .bind fun _ _ ↦ grows_push _ _
  | jumpIfFalse =>
    refine .bind fun (value, operands) hpop ↦ ?_
    have hlength := length_le_of_pop hpop
    cases value with
    | bool condition => cases condition <;> exact ⟨.inl hlength, nofun⟩
    | i64 | f64 | null | str => trivial

end Instruction

/-- How high the stack is after an instruction of a run above `below` values. -/
def Turn.height (below : Nat) : Turn ν → Nat
  | .goes run _ => below + run.values.length
  | .calls _ _ arguments run => below + run.values.length + arguments.length
  | .ends (.ok _) => below + 1
  | .ends (.error _) => below

theorem exists_size_ofTurn (o : Outside ν) (s : Shared ν) (waiting : Waiting ν b .code)
    (turn : Turn ν) :
    ∃ e, (Progress.ofTurn s waiting turn).onto o = .more e ∧
      e.world.machine.stack.size = turn.height (waiting.values o.values).length := by
  cases turn with
  | goes run globals =>
    refine ⟨_, rfl, ?_⟩
    rw [Turn.height, ← List.length_append]
    exact Stack.size_mk _
  | calls name function arguments run =>
    refine ⟨_, rfl, ?_⟩
    rw [Turn.height, ← List.length_append, ← List.length_append]
    exact Stack.size_mk _
  | ends outcome =>
    cases waiting with
    | outside =>
      cases outcome with
      | ok value => exact ⟨_, rfl, by simp [Shared.afterCode, Turn.height, Waiting.values]⟩
      | error trap => exact ⟨_, rfl, by simp [Shared.afterCode, Turn.height, Waiting.values]⟩
    | entry caller rest =>
      cases outcome with
      | ok value =>
        refine ⟨_, rfl, (Stack.size_mk _).trans ?_⟩
        rw [← List.append_assoc, List.length_append]
        rfl
      | error trap => exact ⟨_, rfl, Stack.size_mk _⟩

section Height

variable {s : Shared ν} {run : Run} {below depth : Nat}

theorem height_callTurn_le (callee : Nat) :
    (run.callTurn s below depth callee).height below
      ≤ max (below + run.values.length) s.limits.stackDepth := by
  rw [Run.callTurn]
  split
  · simp only [Run.trap, Turn.height]
    omega
  dsimp only
  split
  · simp only [Run.trap, Turn.height]
    omega
  rename_i frame henter
  obtain ⟨-, hstack, hoperands⟩ := Frame.enter_ok henter
  rw [Turn.height, Run.length_values, hoperands]
  simp only [Run.floor, stacked_cons, List.length_append, List.length_nil]
  simp only [Run.values, List.length_append] at hstack
  exact Nat.le_trans hstack (Nat.le_max_right _ _)

theorem height_returnTurn_le :
    (run.returnTurn s).height below ≤ max (below + run.values.length) s.limits.stackDepth := by
  refine Nat.le_trans ?_ (Nat.le_max_left _ _)
  rw [Run.returnTurn]
  split
  · simp only [Run.trap, Turn.height]
    omega
  rename_i value operands hoperands
  have hlength := run.length_values below
  simp only [hoperands, Run.floor, List.length_cons] at hlength
  split
  · rw [Turn.height]
    omega
  · rename_i frame outer houter
    simp only [houter, stacked_cons, Frame.values, List.length_append, List.length_reverse]
      at hlength
    simp only [Turn.height, Run.values, Frame.values, List.length_append, List.length_reverse,
      List.length_cons] at hlength ⊢
    omega

/-- No instruction but a call of a host function makes the stack higher than the limit. -/
theorem height_turn_le (hi : ∀ i, run.chunk.instruction? run.frame.function run.frame.pc = some i →
    i.opcode ≠ .callHost) :
    (run.turn s below depth).height below
      ≤ max (below + run.values.length) s.limits.stackDepth := by
  have hlength := run.length_values below
  rw [Run.turn]
  split
  · simp only [Run.trap, Turn.height]
    omega
  rename_i i hinstruction
  have hstays := @exec_stays s.limits.stackDepth s.globals run.chunk
    (below + (stacked run.outer).length + run.frame.locals.length) i run.frame
  have hgrows := @exec_grows s.limits.stackDepth
    (below + (stacked run.outer).length + run.frame.locals.length) run.frame i s.globals run.chunk
  dsimp only
  split
  · simp only [Run.trap, Turn.height]
    omega
  rename_i flow frame globals hexec
  rw [hexec] at hstays hgrows
  obtain ⟨-, -, hlocals, -⟩ := hstays
  obtain ⟨hgrows, hhost⟩ := hgrows
  have hafter : below + ({ run with frame } : Run).values.length
      = below + (stacked run.outer).length + run.frame.locals.length + frame.operands.length := by
    rw [Run.length_values, Run.floor, hlocals]
  rw [Run.floor] at hlength
  split
  · simp only [Turn.height, Run.values_goto]
    omega
  · simp only [Turn.height, Run.values_goto]
    omega
  · exact height_callTurn_le _
  · exact absurd (hhost rfl) (hi i hinstruction)
  · exact height_returnTurn_le

end Height

/-! ## One run of bytecode -/

section Runs

variable {s : Shared ν} {below passed : List Value} {depth : Nat} {chunk : Chunk} {index : Nat}

/-- A function that is let in begins within the limits, and so does all that is outside. -/
theorem within_codeMachine (name : String) :
    (codeMachine s below depth name chunk index passed).Within s.limits ⟨below, depth⟩ := by
  rw [codeMachine, Config.enter]
  split
  · rename_i frame henter
    obtain ⟨hdepth, hstack, -⟩ := Frame.enter_ok henter
    exact ⟨⟨hdepth, hstack⟩, Nat.le_trans (Nat.le_add_right _ _) hstack⟩
  · trivial

/-- As long as more calls are live than when it was called, a run has not ended. -/
theorem exists_more_of_depth_lt {o : Outside ν} {p : Progress ν .code} {n : Nat}
    {d : Bytecode.Config ν} (hn : (p.onto o).after n = .more d)
    (hlive : ∀ m ≤ n, ∀ e, (p.onto o).after m = .more e → o.depth < e.world.machine.depth) :
    ∃ own, p.after o.toGround n = .more own ∧ d = own.onto o := by
  cases hown : p.after o.toGround n with
  | more own =>
    rw [after_onto_of_more o hown] at hn
    exact ⟨own, rfl, (Bytecode.Progress.more.inj hn).symm⟩
  | ended s result =>
    -- It would have been back at the depth of its caller after some of these steps.
    have hafter := after_onto o p n
    rw [hown] at hafter
    cases result with
    | code outcome =>
      have hdepth := hlive _ (p.steps_le _ n) _ hafter
      cases outcome with
      | ok value => exact absurd hdepth (Nat.lt_irrefl _)
      | error trap => exact absurd hdepth (Nat.lt_irrefl _)

end Runs

end Separate

/-! ## The limits -/

open Separate

variable {ν : Type}

namespace Config

/-- The bounds on what is in use. Host code may push as much as it likes, so those on the stack are
said of the moments between instructions. -/
structure WithinLimits (c : Config ν) : Prop where
  depth_le : c.world.machine.depth ≤ c.world.machine.limits.callDepth
  floor_le : ∀ frame ∈ c.frames, frame.floor ≤ c.world.machine.limits.stackDepth
  operands_le : ∀ run, c.control = .code run → run.frame.floor ≤ c.world.machine.stack.size ∧
    c.world.machine.stack.size ≤ run.frame.floor + Verify.maxOperandDepth
  size_le : ∀ run, c.control = .code run →
    c.world.machine.stack.size ≤ c.world.machine.limits.stackDepth + Verify.maxOperandDepth

/-- If the next step is an instruction other than a call of a host function, it makes the stack no
higher than it is, or no higher than its limit. -/
def GrowsWithinLimits (c : Config ν) : Prop :=
  ∀ run c', c.control = .code run → c.step = .more c' →
    (∀ i, run.chunk.instruction? run.frame.function run.frame.pc = some i → i.opcode ≠ .callHost) →
    c'.world.machine.stack.size ≤ c.world.machine.stack.size ∨
      c'.world.machine.stack.size ≤ c.world.machine.limits.stackDepth

/-- The run that was called in `w` goes on for `n` steps, and all the while the limits are those
of `w`. It is over as soon as no more calls are live than there were before. -/
def GoesOn (w : World ν) (start : Config ν) (n : Nat) : Prop :=
  ∀ m ≤ n, ∀ c, (Progress.more start).after m = .more c →
    w.machine.depth < c.world.machine.depth ∧ c.world.machine.limits = w.machine.limits

end Config

namespace Separate

variable {o : Outside ν} {s : Shared ν} {run : Run} {waiting : Waiting ν .code .code}

theorem withinLimits_host {window : List Value} {program : HostProgram ν}
    {waiting : Waiting ν .code .host}
    (hcontrol : (Control.host window program waiting).Within s.limits o.toGround)
    (hout : FloorsWithin s.limits.stackDepth o.calls) :
    (Config.onto o ⟨s, .host window program waiting⟩).WithinLimits where
  depth_le := hcontrol.1
  floor_le frame hframe := by
    obtain ⟨call, hcall, hframe⟩ := List.mem_flatMap.mp hframe
    exact Waiting.floorsWithin_calls hout hcontrol.2 call hcall frame hframe
  operands_le _ hcode := by cases hcode
  size_le _ hcode := by cases hcode

theorem size_codeWorld : (s.codeWorld o run waiting).machine.stack.size
    = (run.above o waiting).frame.floor + run.frame.operands.length := by
  refine (Stack.size_mk _).trans ?_
  rw [List.length_append, Run.length_values]
  rfl

theorem withinLimits_code (hrun : wellPlaced.executing run)
    (hcontrol : (Control.code run waiting).Within s.limits o.toGround)
    (hout : FloorsWithin s.limits.stackDepth o.calls) :
    (Config.onto o ⟨s, .code run waiting⟩).WithinLimits := by
  obtain ⟨-, ⟨function, -, -, hvisits⟩, -⟩ := hrun
  have hoperands := hvisits.depth_le
  have hfloor : (run.above o waiting).frame.floor ≤ s.limits.stackDepth := hcontrol.1.floor_le
  have hsize : (s.codeWorld o run waiting).machine.stack.size
      = (run.above o waiting).frame.floor + run.frame.operands.length := size_codeWorld
  refine ⟨hcontrol.1.depth_le, fun frame hframe ↦ ?_, fun run' hcode ↦ ?_, fun run' hcode ↦ ?_⟩
  · rcases List.mem_append.mp hframe with hframe | hframe
    · exact Nat.le_trans (Run.floor_le_of_mem_frames hframe) hfloor
    · obtain ⟨call, hcall, hframe⟩ := List.mem_flatMap.mp hframe
      exact Waiting.floorsWithin_calls hout hcontrol.2 call hcall frame hframe
  · cases hcode
    simp only [Config.onto, hsize]
    omega
  · cases hcode
    change (s.codeWorld o run waiting).machine.stack.size ≤ s.limits.stackDepth + _
    omega

theorem withinLimits_onto {own : Config ν .code} (hplaced : wellPlaced.OnConfig own)
    (hcontrol : own.control.Within own.shared.limits o.toGround)
    (hout : FloorsWithin own.shared.limits.stackDepth o.calls) : (own.onto o).WithinLimits := by
  obtain ⟨s, control⟩ := own
  cases control with
  | host window program waiting => exact withinLimits_host hcontrol hout
  | code run waiting => exact withinLimits_code hplaced.2.1 hcontrol hout

theorem growsWithinLimits_onto (own : Config ν .code) : (own.onto o).GrowsWithinLimits := by
  intro run' c' hcode hstep hi
  obtain ⟨s, control⟩ := own
  cases control with
  | host window program waiting => cases hcode
  | code run waiting =>
    cases hcode
    have hheight := @height_turn_le ν s run (waiting.values o.values).length
      (waiting.depth o.depth) hi
    obtain ⟨e, he, hsize⟩ := exists_size_ofTurn o s waiting
      (run.turn s (waiting.values o.values).length (waiting.depth o.depth))
    rw [step_onto, Config.step, he] at hstep
    cases hstep
    rw [hsize]
    have hbefore : (Config.onto o ⟨s, .code run waiting⟩).world.machine.stack.size
        = (waiting.values o.values).length + run.values.length := by
      rw [← List.length_append]
      exact Stack.size_mk _
    rw [hbefore]
    change _ ∨ _ ≤ s.limits.stackDepth
    omega

/-- The machine that carries out a call. All frames that are live before are outside of it and have
their operands begin below it. -/
theorem exists_codeMachine {w : World ν} {program : HostProgram ν} {calls : List (HostCall ν)}
    (hreach : Bytecode.Config.Reachable ⟨w, .host program, calls⟩) {chunk : Chunk} {index : Nat}
    (name : String) (resume : Reply → HostProgram ν)
    (hheight : chunk.functionArity index ≤ w.machine.stack.height) :
    ∃ (s : Shared ν) (o : Outside ν) (passed : List Value),
      wellPlaced.OnShared s ∧ FloorsWithin o.values.length o.calls ∧
        o.depth = w.machine.depth ∧ s.limits = w.machine.limits ∧
        Bytecode.Progress.more
            (.callCode w calls name chunk index (chunk.functionArity index) resume)
          = (codeMachine s o.values o.depth name chunk index passed).onto o := by
  obtain ⟨⟨s, control⟩, hown, hloaded, -⟩ := exists_onto_of_reachable wellPlaced_kept hreach
  cases control with
  | code run waiting => cases hown
  | host window program waiting =>
    cases hown
    change _ ≤ (Stack.windowed _ window).height at hheight
    rw [Stack.height_windowed] at hheight
    obtain ⟨kept, passed, rfl, hpassed⟩ := Stack.exists_append_of_le_length hheight
    let o : Outside ν := ⟨⟨waiting.values [] ++ kept, waiting.depth 0⟩, (waiting.values []).length,
      by simp, resume, waiting.calls .nothing⟩
    have hcall := callCode_onto o s passed .outside name hpassed.symm
    rw [Waiting.values, List.append_assoc, hpassed] at hcall
    refine ⟨s, o, passed, hloaded, waiting.floorsWithin_of_length_le ?_, rfl, rfl, ?_⟩
    · rw [List.length_append]
      exact Nat.le_add_right _ _
    · rw [codeMachine, hpassed]
      exact hcall

theorem withinLimits_codeMachine {chunk : Chunk} {index : Nat} {name : String} {passed : List Value}
    {n : Nat} {d : Bytecode.Config ν} (hloaded : wellPlaced.OnShared s)
    (hverified : chunk.Verified) (hindex : index < chunk.functions.size)
    (houter : FloorsWithin o.values.length o.calls)
    (hn : ((codeMachine s o.values o.depth name chunk index passed).onto o).after n = .more d)
    (hruns : ∀ m ≤ n, ∀ c,
      ((codeMachine s o.values o.depth name chunk index passed).onto o).after m = .more c →
        o.depth < c.world.machine.depth ∧ c.world.machine.limits = s.limits) :
    d.WithinLimits ∧ d.GrowsWithinLimits := by
  have hwithin : (codeMachine s o.values o.depth name chunk index passed).Within s.limits
      o.toGround := within_codeMachine name
  have hplaced : wellPlaced.OnProgress (codeMachine s o.values o.depth name chunk index passed) :=
    RunProperty.onProgress_enter wellPlaced_kept _ passed hloaded hverified hindex trivial
  -- How the machine was started does not matter any more.
  generalize codeMachine s o.values o.depth name chunk index passed = p at *
  obtain ⟨own, hmore, rfl⟩ := exists_more_of_depth_lt hn fun m hm e he ↦ (hruns m hm e he).1
  have hlimits : ∀ m ≤ n, ∀ c, p.after o.toGround m = .more c → c.shared.limits = s.limits := by
    intro m hm c hc
    have honto : (c.onto o).world.machine.limits = c.shared.limits :=
      congrArg Shared.limits (c.ofWorld_onto o)
    rw [← honto]
    exact (hruns m hm _ (after_onto_of_more o hc)).2
  replace hwithin := within_after hwithin fun m hm ↦ hlimits m (Nat.le_of_lt hm)
  replace hplaced := RunProperty.onProgress_after wellPlaced_kept o.toGround hplaced n
  rw [hmore] at hwithin hplaced
  have hfloors : FloorsWithin s.limits.stackDepth o.calls := fun call hcall frame hframe ↦
    Nat.le_trans (houter call hcall frame hframe) hwithin.ground_le
  rw [← hlimits n (Nat.le_refl n) own hmore] at hwithin hfloors
  exact ⟨withinLimits_onto hplaced hwithin hfloors, growsWithinLimits_onto own⟩

end Separate

/-- While verified bytecode runs, whatever host functions it calls and whatever these do, resource
use stays within the limits as long as nobody changes them: of nested calls, of where frames begin,
and of the whole stack but for the operands of one frame. The stack gets above its limit only by the
result of a host function. -/
theorem verified_bytecode_stays_within_limits {chunk : Chunk} (hverified : chunk.Verified)
    {w : World ν} {program : HostProgram ν} {calls : List (HostCall ν)}
    (hreach : Config.Reachable ⟨w, .host program, calls⟩) {index : Nat}
    (hindex : index < chunk.functions.size)
    (hheight : chunk.functionArity index ≤ w.machine.stack.height) (name : String)
    (resume : Reply → HostProgram ν) {n : Nat}
    (hruns : Config.GoesOn w
      (.callCode w calls name chunk index (chunk.functionArity index) resume) n)
    {d : Config ν}
    (hn : (Progress.more
      (.callCode w calls name chunk index (chunk.functionArity index) resume)).after n = .more d) :
    d.WithinLimits ∧ d.GrowsWithinLimits := by
  obtain ⟨s, o, passed, hloaded, houter, hdepth, hlimits, honto⟩ :=
    exists_codeMachine hreach name resume hheight
  rw [honto] at hn
  rw [Config.GoesOn, honto, ← hdepth, ← hlimits] at hruns
  exact withinLimits_codeMachine hloaded hverified hindex houter hn hruns

/-! ## A result above the limit -/

namespace Answering

theorem goesOn : Config.GoesOn (world #[] 0 []) asking 3 := by
  intro m hm c hc
  cases m with
  | zero =>
    cases hc
    decide
  | succ m =>
    rw [Progress.after_more_succ, step_asking] at hc
    obtain rfl | rfl | rfl : m = 0 ∨ m = 1 ∨ m = 2 := by omega
    · cases hc
      decide
    · cases hc
      decide
    · cases hc
      decide

end Answering

/-- The result of a host function stands above the limit on the stack, and all bounds hold. -/
theorem verified_bytecode_stays_within_limits_answering :
    Config.Reachable ⟨Answering.world #[] 0 [], .host Answering.calling, []⟩ ∧
      Answering.chunk.Verified ∧ Config.GoesOn (Answering.world #[] 0 []) Answering.asking 3 ∧
      (Progress.more Answering.asking).after 3 = .more Answering.answered ∧
      Answering.answered.world.machine.limits.stackDepth
        < Answering.answered.world.machine.stack.size ∧
      Answering.answered.WithinLimits ∧ Answering.answered.GrowsWithinLimits := by
  refine ⟨Answering.reachable, Answering.verified, Answering.goesOn, Answering.after_asking,
    by decide, ?_⟩
  exact @verified_bytecode_stays_within_limits _ Answering.chunk Answering.verified _ _ _
    Answering.reachable 0 (by decide) (by decide) "ask" (fun _ ↦ .done .ok) 3 Answering.goesOn _
    Answering.after_asking

end Bytecode
