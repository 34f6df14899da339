import Bytecode.Proofs.Run
import Bytecode.Proofs.Separate.Invariant
import Bytecode.Proofs.Separate.Refinement

/-!
# Whole runs in lockstep

From the agreement of single steps: as long as the separate machine has not ended, the machine with
one stack is where the placement says, after the same number of steps; and when the separate machine
ends, the other one has come back to whoever called.

## What a call does

A call that returns was answered at once, or it was carried out by a separate machine of its own
that has ended: one started on a bytecode function, or one started on the body of a host function.
`callReturns_host_iff` and `callReturns_code_iff` give this machine. It knows of its surroundings
only how many values and calls there are, so everything the surroundings own is untouched by the
call.
-/

namespace Bytecode.Separate

variable {ν : Type} {b : Awaited}

/-! ## Many steps -/

namespace Progress

variable {g : Ground}

@[simp] theorem after_zero (p : Progress ν b) : p.after g 0 = p := by
  cases p <;> rfl

@[simp] theorem after_ended (n : Nat) (s : Shared ν) (result : Result b) :
    (ended s result).after g n = ended s result := by
  cases n <;> rfl

theorem after_more_succ (n : Nat) (c : Config ν b) :
    (more c).after g (n + 1) = (c.step g).after g n := rfl

/-- The machine comes to an end. -/
def Ends (g : Ground) (p : Progress ν b) (s : Shared ν) (result : Result b) : Prop :=
  ∃ n, p.after g n = .ended s result

theorem ends_or_forever (g : Ground) (p : Progress ν b) :
    (∃ s result, p.Ends g s result) ∨ ∀ n, ∃ c, p.after g n = .more c := by
  by_cases h : ∃ n s result, p.after g n = .ended s result
  · obtain ⟨n, s, result, h⟩ := h
    exact .inl ⟨s, result, n, h⟩
  · refine .inr fun n ↦ ?_
    cases hn : p.after g n with
    | more c => exact ⟨c, rfl⟩
    | ended s result => exact absurd ⟨n, s, result, hn⟩ h

end Progress

/-! ## Calls of host functions -/

/-- The number of host functions whose bodies have not ended. -/
def Waiting.opened : {a : Awaited} → Waiting ν b a → Nat
  | _, .outside => 0
  | _, .program _ _ rest => rest.opened + 1
  | _, .bytecode _ _ rest => rest.opened + 1
  | _, .entry _ rest => rest.opened

def Config.opened : Config ν b → Nat
  | ⟨_, .host _ _ waiting⟩ => waiting.opened
  | ⟨_, .code _ waiting⟩ => waiting.opened

/-- The host function that has just been entered, where `before` were executing a step ago. -/
def Config.entered? (before : Nat) : Config ν b → Option HostEntry
  | ⟨_, .host window _ (.program name _ rest)⟩ =>
    if before ≤ rest.opened then some ⟨name, window, false⟩ else none
  | ⟨_, .host window _ (.bytecode name _ rest)⟩ =>
    if before ≤ rest.opened then some ⟨name, window, true⟩ else none
  | _ => none

/-- The host function that a step enters. -/
def Config.enters? (g : Ground) (c : Config ν b) : Option HostEntry :=
  match c.step g with
  | .more c' => c'.entered? c.opened
  | .ended _ _ => none

/-- The host functions that are entered in `n` steps, in order. -/
def Progress.entries (g : Ground) : Nat → Progress ν b → List HostEntry
  | n + 1, .more config => (config.enters? g).toList ++ (config.step g).entries g n
  | _, _ => []

theorem Waiting.length_calls (o : Outside ν) {a : Awaited} (waiting : Waiting ν b a) :
    (waiting.calls o).length = waiting.opened + o.calls.length := by
  induction waiting with
  | outside => simp [calls, opened]
  | program name caller rest ih => simp [calls, opened, ih, Nat.add_right_comm]
  | bytecode name run rest ih => simp [calls, opened, ih, Nat.add_right_comm]
  | entry caller rest ih => exact ih

theorem Config.length_calls_onto (o : Outside ν) (c : Config ν b) :
    (c.onto o).calls.length = c.opened + o.calls.length := by
  obtain ⟨s, control⟩ := c
  cases control with
  | host window program waiting => exact waiting.length_calls o
  | code run waiting => exact waiting.length_calls o

/-- Where no call has been opened, no host function has been entered. -/
theorem entered?_of_calls_le {c : Bytecode.Config ν} {before : Nat} (h : c.calls.length ≤ before) :
    c.entered? before = none := by
  rw [Bytecode.Config.entered?]
  split
  · rename_i hcalls
    rw [hcalls, List.length_cons] at h
    exact if_neg (by omega)
  · rfl

theorem Config.entered?_onto (o : Outside ν) (before : Nat) (c : Config ν b) :
    (c.onto o).entered? (before + o.calls.length) = c.entered? before := by
  obtain ⟨s, control⟩ := c
  cases control with
  | code run waiting => rfl
  | host window program waiting =>
    have hwindow : (s.hostWorld o window waiting).machine.stack.window = window :=
      Stack.window_windowed _ _
    cases waiting with
    | outside => exact entered?_of_calls_le (Nat.le_add_left _ _)
    | program name caller rest =>
      simp only [onto, Bytecode.Config.entered?, Waiting.calls, hwindow, rest.length_calls,
        Nat.add_le_add_iff_right, entered?]
      rfl
    | bytecode name run rest =>
      simp only [onto, Bytecode.Config.entered?, Waiting.calls, hwindow, rest.length_calls,
        Nat.add_le_add_iff_right, entered?]
      rfl

theorem Config.enters?_onto (o : Outside ν) (c : Config ν .code) :
    (c.onto o).enters? = c.enters? o.toGround := by
  rw [Bytecode.Config.enters?, enters?, step_onto, length_calls_onto]
  cases c.step o.toGround with
  | more c' => exact c'.entered?_onto o c.opened
  | ended s result =>
    cases result with
    | code outcome => exact entered?_of_calls_le (Nat.le_add_left _ _)

/-! ## Lockstep -/

/-- How many of `n` steps are made before the end. -/
def Progress.steps (g : Ground) : Nat → Progress ν b → Nat
  | n + 1, .more config => (config.step g).steps g n + 1
  | _, _ => 0

theorem Progress.steps_le (g : Ground) (n : Nat) (p : Progress ν b) : p.steps g n ≤ n := by
  induction n generalizing p with
  | zero => cases p <;> exact Nat.le_refl 0
  | succ n ih =>
    cases p with
    | more c => exact Nat.succ_le_succ (ih _)
    | ended s result => exact Nat.zero_le _

theorem Progress.steps_of_more {g : Ground} {n : Nat} {p : Progress ν b} {c : Config ν b}
    (h : p.after g n = .more c) : p.steps g n = n := by
  induction n generalizing p with
  | zero => cases p <;> rfl
  | succ n ih =>
    cases p with
    | more d => exact congrArg (· + 1) (ih h)
    | ended s result => cases h

/-- The machine with one stack is in step with the separate one until that has ended. -/
theorem after_onto (o : Outside ν) (p : Progress ν b) (n : Nat) :
    (p.onto o).after (p.steps o.toGround n) = (p.after o.toGround n).onto o := by
  induction n generalizing p with
  | zero => cases p <;> simp [Progress.steps]
  | succ n ih =>
    cases p with
    | more c =>
      rw [Progress.steps, Progress.onto, Bytecode.Progress.after_more_succ, step_onto, ih]
      rfl
    | ended s result => simp [Progress.steps]

theorem after_onto_of_more (o : Outside ν) {p : Progress ν b} {n : Nat} {c : Config ν b}
    (h : p.after o.toGround n = .more c) : (p.onto o).after n = .more (c.onto o) := by
  have hafter := after_onto o p n
  rw [Progress.steps_of_more h, h] at hafter
  exact hafter

/-- Until the separate machine has ended, both enter the same host functions. -/
theorem entries_onto (o : Outside ν) (p : Progress ν .code) (n : Nat) :
    (p.onto o).entries (p.steps o.toGround n) = p.entries o.toGround n := by
  induction n generalizing p with
  | zero => cases p <;> simp [Progress.steps, Progress.entries, Bytecode.Progress.entries]
  | succ n ih =>
    cases p with
    | more c =>
      rw [Progress.steps, Progress.onto, Bytecode.Progress.entries, Progress.entries, step_onto,
        c.enters?_onto, ih]
    | ended s result => simp [Progress.steps, Progress.entries, Bytecode.Progress.entries]

/-! ## Returning and ending -/

section Returning

variable {start : (Reply → HostProgram ν) → List (HostCall ν) → Bytecode.Config ν}
  {p : Progress ν b} {o : (Reply → HostProgram ν) → List (HostCall ν) → Outside ν} {g : Ground}
  {k : Nat}

/-- A machine that goes on for ever keeps whoever is outside from halting. -/
theorem exists_ends_of_halts {outside : Outside ν} {c d : Bytecode.Config ν} {status : Status}
    {w : World ν} (hstart : (Bytecode.Progress.more c).after k = p.onto outside)
    (hreach : c.Reaches d) (hhalts : d.step = .halted status w) :
    ∃ s result, p.Ends outside.toGround s result := by
  refine (p.ends_or_forever outside.toGround).resolve_right fun hforever ↦ ?_
  obtain ⟨n, hn⟩ := hreach
  have hhalted : (Bytecode.Progress.more c).after (k + (n + 1)) = .halted status w := by
    have hsum : k + (n + 1) = n + (1 + k) := by omega
    rw [hsum, Bytecode.Progress.after_add, hn, Bytecode.Progress.after_add,
      Bytecode.Progress.after_more_succ, Bytecode.Progress.after_zero, hhalts]
    exact Bytecode.Progress.after_halted k status w
  obtain ⟨own, hown⟩ := hforever (n + 1)
  rw [Bytecode.Progress.after_add, hstart, after_onto_of_more _ hown] at hhalted
  cases hhalted

/-- Code that returns has ended: a machine that goes on for ever would go on for ever under a caller
that is done when it is called back. -/
theorem exists_ends_of_returns {reply : Reply} {w : World ν}
    (hstart : ∀ resume calls,
      (Bytecode.Progress.more (start resume calls)).after k = p.onto (o resume calls))
    (hground : ∀ resume calls, (o resume calls).toGround = g) (h : Returns start reply w) :
    ∃ s result, p.Ends g s result := by
  -- This caller is done as soon as it is called back: to return is to halt one step later.
  let resume : Reply → HostProgram ν := fun _ ↦ .done .ok
  rw [← hground resume []]
  exact exists_ends_of_halts (hstart resume []) (h resume []) rfl

/-- Code returns what its end says. -/
theorem returns_of_ends {s : Shared ν} {result : Result b} {reply : Reply} {w : World ν}
    (hstart : ∀ resume calls,
      (Bytecode.Progress.more (start resume calls)).after k = p.onto (o resume calls))
    (hground : ∀ resume calls, (o resume calls).toGround = g) (h : p.Ends g s result)
    (hresult : ∀ resume calls,
      result.onto (o resume calls) s = .more ⟨w, .host (resume reply), calls⟩) :
    Returns start reply w := by
  intro resume calls
  obtain ⟨n, hn⟩ := h
  have hafter := after_onto (o resume calls) p n
  rw [hground, hn, Progress.onto, hresult] at hafter
  exact ⟨k + p.steps g n, by rw [Bytecode.Progress.after_add, hstart, hafter]⟩

end Returning

/-! ## Calls of bytecode functions -/

section Calls

variable {s : Shared ν} {below passed : List Value} {base depth : Nat} {name : String}
  {reply : Reply} {w : World ν}

/-- The machine that carries out a call of a bytecode function. -/
def codeMachine (s : Shared ν) (below : List Value) (depth : Nat) (name : String) (chunk : Chunk)
    (index : Nat) (passed : List Value) : Progress ν .code :=
  Config.enter ⟨below, depth⟩ (s.log (.codeCalled name passed.length)) chunk index passed .outside

theorem returns_code_iff {start : (Reply → HostProgram ν) → List (HostCall ν) → Bytecode.Config ν}
    {k : Nat} {chunk : Chunk} {index : Nat} (hbase : base ≤ below.length)
    (harity : chunk.functionArity index = passed.length)
    (hstart : ∀ resume calls, (Bytecode.Progress.more (start resume calls)).after k
      = .more (Config.callCode (s.world ⟨(below ++ passed).toArray, base⟩ depth) calls name chunk
          index passed.length resume)) :
    Returns start reply w ↔
      ∃ s' outcome, (codeMachine s below depth name chunk index passed).Ends ⟨below, depth⟩ s'
          (.code outcome) ∧
        reply = outcome.reply ∧ w = s'.afterCode below base depth outcome := by
  -- One machine serves all callers, since only what is outside of it depends on them.
  let o (resume : Reply → HostProgram ν) (calls : List (HostCall ν)) : Outside ν :=
    ⟨⟨below, depth⟩, base, hbase, resume, calls⟩
  have honto : ∀ resume calls, (Bytecode.Progress.more (start resume calls)).after k
      = (codeMachine s below depth name chunk index passed).onto (o resume calls) := by
    intro resume calls
    rw [hstart]
    exact callCode_onto (o resume calls) s passed .outside name harity
  have hreturns : ∀ s' outcome, (codeMachine s below depth name chunk index passed).Ends
      ⟨below, depth⟩ s' (.code outcome) →
      Returns start outcome.reply (s'.afterCode below base depth outcome) :=
    fun s' outcome hends ↦ returns_of_ends honto (fun _ _ ↦ rfl) hends fun _ _ ↦ rfl
  constructor
  · intro h
    obtain ⟨s', result, hends⟩ := exists_ends_of_returns honto (fun _ _ ↦ rfl) h
    cases result with
    | code outcome => exact ⟨s', outcome, hends, h.unique (hreturns s' outcome hends)⟩
  · rintro ⟨s', outcome, hends, rfl, rfl⟩
    exact hreturns s' outcome hends

theorem codeReturns_iff {chunk : Chunk} {index : Nat} (hbase : base ≤ below.length)
    (harity : chunk.functionArity index = passed.length) :
    (s.world ⟨(below ++ passed).toArray, base⟩ depth).CodeReturns name chunk index passed.length
        reply w ↔
      ∃ s' outcome, (codeMachine s below depth name chunk index passed).Ends ⟨below, depth⟩ s'
          (.code outcome) ∧
        reply = outcome.reply ∧ w = s'.afterCode below base depth outcome :=
  returns_code_iff hbase harity fun _ _ ↦ Bytecode.Progress.after_zero _

theorem after_call_code {w : World ν} {arguments : Nat} {chunk : Chunk} {index : Nat}
    (hdispatch : w.machine.dispatch name arguments = .ok (.code chunk index))
    (resume : Reply → HostProgram ν) (calls : List (HostCall ν)) :
    (Bytecode.Progress.more ⟨w, .host (.call name arguments resume), calls⟩).after 1
      = .more (Config.callCode w calls name chunk index arguments resume) := by
  rw [Bytecode.Progress.after_more_succ, Bytecode.Progress.after_zero]
  simp only [Bytecode.Config.step, Bytecode.Config.hostStep, Bytecode.Config.call, hdispatch]

theorem callReturns_code_iff {chunk : Chunk} {index : Nat} (hbase : base ≤ below.length)
    (hdispatch : (s.world ⟨(below ++ passed).toArray, base⟩ depth).machine.dispatch name
      passed.length = .ok (.code chunk index)) :
    (s.world ⟨(below ++ passed).toArray, base⟩ depth).CallReturns name passed.length reply w ↔
      ∃ s' outcome, (codeMachine s below depth name chunk index passed).Ends ⟨below, depth⟩ s'
          (.code outcome) ∧
        reply = outcome.reply ∧ w = s'.afterCode below base depth outcome :=
  returns_code_iff (k := 1) hbase (dispatch_ok hdispatch).2.2.2 fun resume calls ↦
    after_call_code hdispatch resume calls

/-! ## Calls of host functions -/

/-- The machine that carries out a call of a host function. -/
def hostMachine (s : Shared ν) (name : String) (function : HostFunction ν) (passed : List Value) :
    Progress ν .host :=
  .more ⟨s.log (.hostCalled name passed.length), .host passed function.body .outside⟩

/-- What is outside of a host function that host code has called. The call itself is open while the
body runs. The base is never looked at, because the body's window begins with the arguments. -/
def Outside.ofCall (below : List Value) (base depth : Nat) (name : String)
    (resume : Reply → HostProgram ν) (calls : List (HostCall ν)) : Outside ν :=
  ⟨⟨below, depth + 1⟩, 0, Nat.zero_le _, resume, ⟨name, base, .program resume⟩ :: calls⟩

theorem after_call_host {function : HostFunction ν} (hbase : base ≤ below.length)
    (hdispatch : (s.world ⟨(below ++ passed).toArray, base⟩ depth).machine.dispatch name
      passed.length = .ok (.host function)) (hdepth : ¬s.limits.callDepth ≤ depth)
    (resume : Reply → HostProgram ν) (calls : List (HostCall ν)) :
    (Bytecode.Progress.more ⟨s.world ⟨(below ++ passed).toArray, base⟩ depth,
        .host (.call name passed.length resume), calls⟩).after 1
      = (hostMachine s name function passed).onto
          (.ofCall below base depth name resume calls) := by
  rw [Bytecode.Progress.after_more_succ, Bytecode.Progress.after_zero]
  simp only [Bytecode.Config.step, Bytecode.Config.hostStep, Bytecode.Config.call, hdispatch]
  change Bytecode.Progress.more (if s.limits.callDepth ≤ depth then _ else
    Bytecode.Config.openCall ((s.log (.hostCalled name passed.length)).world
      ⟨(below ++ passed).toArray, base⟩ depth) calls name function passed.length
      (.program resume)) = _
  rw [if_neg hdepth, openCall_world _ passed hbase]
  rfl

theorem result_onto_ofCall (hbase : base ≤ below.length) (s : Shared ν) (status : Status)
    (window : List Value) (resume : Reply → HostProgram ν) (calls : List (HostCall ν)) :
    (Result.host status window).onto (.ofCall below base depth name resume calls) s
      = .more ⟨s.afterHost below window base depth name status,
          .host (resume (hostReply name status)), calls⟩ := by
  have hle : base ≤ (below ++ window).length := by
    rw [List.length_append]
    exact Nat.le_add_right_of_le hbase
  change Bytecode.Progress.more (Bytecode.Config.closeCall (s.world
    ⟨(below ++ window).toArray, below.length⟩ (depth + 1)) ⟨name, base, .program resume⟩ calls
    status) = _
  simp only [Bytecode.Config.closeCall, closeCall_world s hle, hostReply, Shared.afterHost]
  cases status.isOk <;> rfl

theorem callReturns_host_iff {function : HostFunction ν} (hbase : base ≤ below.length)
    (hdispatch : (s.world ⟨(below ++ passed).toArray, base⟩ depth).machine.dispatch name
      passed.length = .ok (.host function)) (hdepth : ¬s.limits.callDepth ≤ depth) :
    (s.world ⟨(below ++ passed).toArray, base⟩ depth).CallReturns name passed.length reply w ↔
      ∃ s' status window, (hostMachine s name function passed).Ends ⟨below, depth + 1⟩ s'
          (.host status window) ∧
        reply = hostReply name status ∧
        w = s'.afterHost below window base depth name status := by
  have honto := after_call_host hbase hdispatch hdepth
  have hresult := @result_onto_ofCall ν below base depth name hbase
  constructor
  · intro h
    obtain ⟨s', result, hends⟩ := exists_ends_of_returns honto (fun _ _ ↦ rfl) h
    cases result with
    | host status window =>
      exact ⟨s', status, window, hends,
        h.unique (returns_of_ends honto (fun _ _ ↦ rfl) hends (hresult s' status window))⟩
  · rintro ⟨s', status, window, hends, rfl, rfl⟩
    exact returns_of_ends honto (fun _ _ ↦ rfl) hends (hresult s' status window)

/-! ## Other calls -/

/-- The world before a call, taken apart into the arguments and the rest. -/
theorem exists_arguments {w : World ν} {arguments : Nat}
    (hbase : w.machine.stack.base ≤ w.machine.stack.values.size)
    (h : arguments ≤ w.machine.stack.height) :
    ∃ (s : Shared ν) (below passed : List Value) (base depth : Nat), base ≤ below.length ∧
      passed.length = arguments ∧ w = s.world ⟨(below ++ passed).toArray, base⟩ depth := by
  obtain ⟨⟨⟨⟨⟨values⟩, base⟩, globals⟩, chunk, hosts, errors, limits, depth⟩, files, journal⟩ := w
  change base ≤ values.length at hbase
  change arguments ≤ values.length - base at h
  obtain ⟨below, passed, rfl, rfl⟩ :=
    Stack.exists_append_of_le_length (Nat.le_trans h (Nat.sub_le _ _))
  rw [List.length_append] at h hbase
  exact ⟨⟨globals, chunk, hosts, errors, limits, files, journal⟩, below, passed, base, depth,
    by omega, rfl, rfl⟩

theorem callReturns_dispatch_error {w : World ν} {arguments : Nat} {failure : Failure}
    (hdispatch : w.machine.dispatch name arguments = .error failure) :
    w.CallReturns name arguments (.error failure) (w.fail failure).2 := by
  refine fun resume calls ↦ .step ?_
  simp only [Bytecode.Config.step, Bytecode.Config.hostStep, Bytecode.Config.call, hdispatch]
  rfl

theorem callReturns_of_dispatch_error {w w' : World ν} {arguments : Nat} {failure : Failure}
    (hdispatch : w.machine.dispatch name arguments = .error failure)
    (h : w.CallReturns name arguments reply w') :
    reply = .error failure ∧ w' = (w.fail failure).2 :=
  h.unique (callReturns_dispatch_error hdispatch)

theorem callReturns_depth_exceeded {w : World ν} {arguments : Nat} {function : HostFunction ν}
    (hdispatch : w.machine.dispatch name arguments = .ok (.host function))
    (hdepth : w.machine.limits.callDepth ≤ w.machine.depth) :
    w.CallReturns name arguments (.error (.callDepthExceeded w.machine.limits.callDepth))
      ((w.log (.hostCalled name arguments)).fail
        (.callDepthExceeded w.machine.limits.callDepth)).2 := by
  refine fun resume calls ↦ .step ?_
  simp only [Bytecode.Config.step, Bytecode.Config.hostStep, Bytecode.Config.call, hdispatch]
  exact congrArg Bytecode.Progress.more (if_pos hdepth)

theorem callReturns_of_depth_exceeded {w w' : World ν} {arguments : Nat} {function : HostFunction ν}
    (hdispatch : w.machine.dispatch name arguments = .ok (.host function))
    (hdepth : w.machine.limits.callDepth ≤ w.machine.depth)
    (h : w.CallReturns name arguments reply w') :
    reply = .error (.callDepthExceeded w.machine.limits.callDepth) ∧
      w' = ((w.log (.hostCalled name arguments)).fail
        (.callDepthExceeded w.machine.limits.callDepth)).2 :=
  h.unique (callReturns_depth_exceeded hdispatch hdepth)

/-- A call that does not return keeps the machine from halting. -/
theorem exists_callReturns_of_halts {w w' : World ν} {arguments : Nat}
    {resume : Reply → HostProgram ν} {calls : List (HostCall ν)} {d : Bytecode.Config ν}
    {status : Status} (hbase : w.machine.stack.base ≤ w.machine.stack.values.size)
    (hreach : Bytecode.Config.Reaches ⟨w, .host (.call name arguments resume), calls⟩ d)
    (hhalts : d.step = .halted status w') :
    ∃ reply w'', w.CallReturns name arguments reply w'' := by
  cases hdispatch : w.machine.dispatch name arguments with
  | error failure => exact ⟨_, _, callReturns_dispatch_error hdispatch⟩
  | ok callee =>
    obtain ⟨hheight, hcallee⟩ := dispatch_ok hdispatch
    obtain ⟨s, below, passed, base, depth, hbelow, rfl, rfl⟩ := exists_arguments hbase hheight
    cases callee with
    | code chunk index =>
      have hstart := (after_call_code hdispatch resume calls).trans
        (callCode_onto ⟨⟨below, depth⟩, base, hbelow, resume, calls⟩ s passed .outside name
          hcallee.2.2)
      obtain ⟨s', result, hends⟩ := exists_ends_of_halts hstart hreach hhalts
      cases result with
      | code outcome =>
        exact ⟨_, _, (callReturns_code_iff hbelow hdispatch).mpr ⟨s', outcome, hends, rfl, rfl⟩⟩
    | host function =>
      by_cases hdepth : s.limits.callDepth ≤ depth
      · exact ⟨_, _, callReturns_depth_exceeded hdispatch hdepth⟩
      · have hstart := after_call_host hbelow hdispatch hdepth resume calls
        obtain ⟨s', result, hends⟩ := exists_ends_of_halts hstart hreach hhalts
        cases result with
        | host status window =>
          exact ⟨_, _, (callReturns_host_iff hbelow hdispatch hdepth).mpr
            ⟨s', status, window, hends, rfl, rfl⟩⟩

end Calls

/-! ## Reachable configurations -/

/-- Nothing is outside. -/
def Outside.nothing : Outside ν where
  values := []
  depth := 0
  base := 0
  base_le := Nat.zero_le _
  resume _ := .done .ok
  calls := []

/-- A step from a placement leads to a placement. -/
theorem exists_onto_of_step {P : RunProperty} (hP : P.Kept ν) {own : Config ν .host}
    {c : Bytecode.Config ν} (h : P.OnConfig own) (hstep : (own.onto .nothing).step = .more c) :
    ∃ own' : Config ν .host, c = own'.onto .nothing ∧ P.OnConfig own' := by
  have hnext := RunProperty.onProgress_step hP (Outside.nothing : Outside ν).toGround h
  rw [step_onto] at hstep
  cases hown : own.step Outside.nothing.toGround with
  | more own' =>
    rw [hown] at hstep hnext
    cases hstep
    exact ⟨own', rfl, hnext⟩
  | ended s result =>
    cases result
    rw [hown] at hstep
    cases hstep

theorem exists_onto_of_reaches {P : RunProperty} (hP : P.Kept ν) {own : Config ν .host}
    {c : Bytecode.Config ν} (h : P.OnConfig own) (hreach : (own.onto .nothing).Reaches c) :
    ∃ own' : Config ν .host, c = own'.onto .nothing ∧ P.OnConfig own' := by
  refine hreach.induction (P := fun c ↦ ∃ own', c = Config.onto .nothing own' ∧ P.OnConfig own')
    ⟨own, rfl, h⟩ ?_
  rintro _ d ⟨own, rfl, h⟩ hstep
  exact exists_onto_of_step hP h hstep

/-- Every configuration that embedding code can bring about is a placement, and what is kept locally
holds of all its runs. -/
theorem exists_onto_of_reachable {P : RunProperty} (hP : P.Kept ν) {c : Bytecode.Config ν}
    (h : c.Reachable) : ∃ own : Config ν .host, c = own.onto .nothing ∧ P.OnConfig own := by
  induction h with
  | fresh limits files journal program =>
    refine ⟨⟨.ofWorld ⟨{ limits }, files, journal⟩, .host [] program .outside⟩, rfl, ?_, trivial⟩
    intro chunk hchunk
    cases hchunk
  | step _ hstep ih =>
    obtain ⟨own, rfl, hown⟩ := ih
    exact exists_onto_of_step hP hown hstep
  | restart _ hstep files journal program ih =>
    -- The outermost program is done, and the next one finds its window as the first one left it.
    obtain ⟨own, rfl, hown⟩ := ih
    have hnext := RunProperty.onProgress_step hP (Outside.nothing : Outside ν).toGround hown
    rw [step_onto] at hstep
    cases hstep' : own.step Outside.nothing.toGround with
    | more own' =>
      rw [hstep'] at hstep
      cases hstep
    | ended s result =>
      cases result with
      | host status window =>
        rw [hstep'] at hstep hnext
        cases hstep
        exact ⟨⟨{ s with files, journal }, .host window program .outside⟩, rfl, hnext.1, trivial⟩

/-- The window of host code never reaches below the stack. -/
theorem Config.base_le_onto {own : Config ν b} {o : Outside ν} {w : World ν}
    {program : HostProgram ν} {calls : List (HostCall ν)}
    (h : ⟨w, .host program, calls⟩ = own.onto o) :
    w.machine.stack.base ≤ w.machine.stack.values.size := by
  obtain ⟨s, control⟩ := own
  cases control with
  | host window program waiting =>
    cases h
    simp [Shared.hostWorld]
  | code run waiting => cases h

theorem base_le_of_reachable {w : World ν} {program : HostProgram ν} {calls : List (HostCall ν)}
    (h : Bytecode.Config.Reachable ⟨w, .host program, calls⟩) :
    w.machine.stack.base ≤ w.machine.stack.values.size := by
  obtain ⟨own, hown, -⟩ := exists_onto_of_reachable RunProperty.anything_kept h
  exact Config.base_le_onto hown

end Bytecode.Separate
