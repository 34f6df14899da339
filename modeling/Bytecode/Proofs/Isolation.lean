import Bytecode.Proofs.Separate.Journal

/-!
# What is below the arguments of a call

A callee neither sees nor changes what lies below its arguments. Two runs of the same call, in
states that differ only there, have the same outcome and leave the same behind, and each of them
keeps its own values below (`call_sees_only_its_arguments`).

The separate machine that carries out a call is given the surroundings as a number of values and a
number of live calls. Hence its runs in two such states are not only similar but the same run
(`step_congr`), and what is left to compare are the worlds that it is put into.
-/

namespace Bytecode

variable {ν : Type}

/-- The machines differ at most in the values below a slot. -/
def Machine.AgreeFrom (slot : Nat) (m m' : Machine ν) : Prop :=
  m'.stack.size = m.stack.size ∧
    m'.stack.values.toList.drop slot = m.stack.values.toList.drop slot ∧
    m' = { m with stack := { m.stack with values := m'.stack.values } }

/-- Outcomes of a call in two worlds: what is left behind from the slot upwards is the same, and so
is all that has been noted since, while below the slot each has its own values. -/
structure World.AlikeFrom (slot : Nat) (w₁ w₂ w₁' w₂' : World ν) : Prop where
  agree : w₁'.machine.AgreeFrom slot w₂'.machine
  files : w₂'.files = w₁'.files
  noted : ∃ events : Array (Event ν),
    w₁'.journal = w₁.journal ++ events ∧ w₂'.journal = w₂.journal ++ events
  kept₁ : w₁'.machine.stack.values.toList.take slot = w₁.machine.stack.values.toList.take slot
  kept₂ : w₂'.machine.stack.values.toList.take slot = w₂.machine.stack.values.toList.take slot

namespace Separate

variable {b : Awaited}

/-! ## Only the number of values below counts -/

theorem Waiting.length_values_congr {a : Awaited} (waiting : Waiting ν b a)
    {ground ground' : List Value} (h : ground.length = ground'.length) :
    (waiting.values ground).length = (waiting.values ground').length := by
  induction waiting with
  | outside => exact h
  | program name caller rest ih => rw [values, values, List.length_append, List.length_append, ih]
  | bytecode name run rest ih => rw [values, values, List.length_append, List.length_append, ih]
  | entry caller rest ih => rw [values, values, List.length_append, List.length_append, ih]

variable {below below' : List Value}

section Congr

variable (h : below.length = below'.length) (depth : Nat)

include h

theorem enter_congr (s : Shared ν) (chunk : Chunk) (index : Nat) (arguments : List Value)
    (waiting : Waiting ν b .code) :
    Config.enter ⟨below, depth⟩ s chunk index arguments waiting
      = Config.enter ⟨below', depth⟩ s chunk index arguments waiting := by
  simp only [Config.enter, waiting.length_values_congr h]

theorem step_congr (c : Config ν b) : c.step ⟨below, depth⟩ = c.step ⟨below', depth⟩ := by
  obtain ⟨s, control⟩ := c
  cases control with
  | code run waiting => simp only [Config.step, waiting.length_values_congr h]
  | host window program waiting =>
    cases program with
    | call name arguments next =>
      simp only [Config.step, Config.hostStep, Config.call, enter_congr h depth]
    | done | ask | act | register | note => rfl

theorem after_congr (p : Progress ν b) (n : Nat) :
    p.after ⟨below, depth⟩ n = p.after ⟨below', depth⟩ n := by
  induction n generalizing p with
  | zero => simp
  | succ n ih =>
    cases p with
    | more c => rw [Progress.after_more_succ, Progress.after_more_succ, step_congr h, ih]
    | ended s result => rfl

theorem ends_congr {p : Progress ν b} {s : Shared ν} {result : Result b}
    (hends : p.Ends ⟨below, depth⟩ s result) : p.Ends ⟨below', depth⟩ s result := by
  obtain ⟨n, hn⟩ := hends
  exact ⟨n, by rw [← after_congr h, hn]⟩

end Congr

/-! ## Outcomes side by side -/

section Outcomes

variable (s s₀ : Shared ν) (h : below.length = below'.length) (base depth : Nat)
  (passed : List Value) (journal : Array (Event ν))

include h

/-- The same values are put on top of different ones, and the same is noted after different
things. -/
theorem alikeFrom_world (top : List Value) :
    World.AlikeFrom below.length (s.world ⟨(below ++ passed).toArray, base⟩ depth)
      (({ s with journal } : Shared ν).world ⟨(below' ++ passed).toArray, base⟩ depth)
      ((s₀.precededBy s.journal).world ⟨(below ++ top).toArray, base⟩ depth)
      ((s₀.precededBy journal).world ⟨(below' ++ top).toArray, base⟩ depth) where
  agree := by
    refine ⟨?_, ?_, rfl⟩
    · simp [h]
    · simp [Shared.world, h]
  files := rfl
  noted := ⟨s₀.journal, rfl, rfl⟩
  kept₁ := by simp
  kept₂ := by simp [h]

theorem alikeFrom_afterCode (outcome : Outcome) :
    World.AlikeFrom below.length (s.world ⟨(below ++ passed).toArray, base⟩ depth)
      (({ s with journal } : Shared ν).world ⟨(below' ++ passed).toArray, base⟩ depth)
      ((s₀.precededBy s.journal).afterCode below base depth outcome)
      ((s₀.precededBy journal).afterCode below' base depth outcome) := by
  cases outcome with
  | ok value => exact alikeFrom_world s s₀ h base depth passed journal [value]
  | error trap =>
    have halike := alikeFrom_world s (s₀.fail (.trapped trap)) h base depth passed journal []
    simpa only [Shared.afterCode, Shared.fail_precededBy, List.append_nil] using halike

theorem alikeFrom_afterHost (window : List Value) (name : String) (status : Status) :
    World.AlikeFrom below.length (s.world ⟨(below ++ passed).toArray, base⟩ depth)
      (({ s with journal } : Shared ν).world ⟨(below' ++ passed).toArray, base⟩ depth)
      ((s₀.precededBy s.journal).afterHost below window base depth name status)
      ((s₀.precededBy journal).afterHost below' window base depth name status) := by
  simp only [Shared.afterHost, Shared.fail_precededBy]
  split
  · exact alikeFrom_world s s₀ h base depth passed journal window
  · exact alikeFrom_world s (s₀.fail _) h base depth passed journal window

end Outcomes

end Separate

/-! ## Calls that are refused -/

section Refused

variable {slot : Nat}

theorem Machine.AgreeFrom.exists_values {m m' : Machine ν} (h : m.AgreeFrom slot m') :
    ∃ values : Array Value, values.size = m.stack.size ∧
      values.toList.drop slot = m.stack.values.toList.drop slot ∧
      m' = { m with stack := { m.stack with values } } :=
  ⟨m'.stack.values, h⟩

theorem Machine.AgreeFrom.dispatch_eq {m m' : Machine ν} (h : m.AgreeFrom slot m') (name : String)
    (arguments : Nat) : m'.dispatch name arguments = m.dispatch name arguments := by
  obtain ⟨values, hsize, -, rfl⟩ := h.exists_values
  have hheight : Stack.height { m.stack with values } = m.stack.height := by
    change values.size - m.stack.base = m.stack.size - m.stack.base
    rw [hsize]
  simp only [Machine.dispatch, hheight]

/-- A failure leaves the stack alone and is announced in the same way. -/
theorem World.alikeFrom_fail {w₁ w₂ : World ν} (hagree : w₁.machine.AgreeFrom slot w₂.machine)
    (hfiles : w₂.files = w₁.files) (failure : Failure) :
    World.AlikeFrom slot w₁ w₂ (w₁.fail failure).2 (w₂.fail failure).2 := by
  obtain ⟨m₂, files₂, journal₂⟩ := w₂
  obtain ⟨values, hsize, habove, rfl⟩ := hagree.exists_values
  have hjournal (journal : Array (Event ν)) (added : List (Event ν)) :
      journal ++ added = journal ++ added.toArray := Array.ext' (by simp)
  exact {
    agree := ⟨hsize, habove, rfl⟩
    files := hfiles
    noted := ⟨_, hjournal _ _, hjournal _ _⟩
    kept₁ := rfl
    kept₂ := rfl }

theorem World.AlikeFrom.of_log {w₁ w₂ w₁' w₂' : World ν} {entry : LogEntry}
    (h : World.AlikeFrom slot (w₁.log entry) (w₂.log entry) w₁' w₂') :
    World.AlikeFrom slot w₁ w₂ w₁' w₂' := by
  obtain ⟨hagree, hfiles, ⟨events, hevents₁, hevents₂⟩, hkept₁, hkept₂⟩ := h
  refine ⟨hagree, hfiles, ⟨#[.logged entry] ++ events, ?_, ?_⟩, hkept₁, hkept₂⟩
  · rw [hevents₁, World.log, Array.push_eq_append, Array.append_assoc]
  · rw [hevents₂, World.log, Array.push_eq_append, Array.append_assoc]

theorem World.alikeFrom_log_fail {w₁ w₂ : World ν}
    (hagree : w₁.machine.AgreeFrom slot w₂.machine) (hfiles : w₂.files = w₁.files)
    (entry : LogEntry) (failure : Failure) :
    World.AlikeFrom slot w₁ w₂ ((w₁.log entry).fail failure).2 ((w₂.log entry).fail failure).2 := by
  have hlogged : (w₁.log entry).machine.AgreeFrom slot (w₂.log entry).machine := hagree
  exact (alikeFrom_fail hlogged hfiles failure).of_log

end Refused

/-! ## Calls -/

open Separate

section Calls

variable {w₁ w₂ : World ν} {name : String} {arguments : Nat}

theorem Machine.AgreeFrom.symm {slot : Nat} {m m' : Machine ν} (h : m.AgreeFrom slot m') :
    m'.AgreeFrom slot m := by
  obtain ⟨values, hsize, habove, rfl⟩ := h.exists_values
  exact ⟨hsize.symm, habove.symm, rfl⟩

/-- The second world, taken apart like the first one: it has the same arguments on top of other
values. -/
theorem exists_counterpart {s : Shared ν} {below passed : List Value} {base depth : Nat}
    (hagree : (s.world ⟨(below ++ passed).toArray, base⟩ depth).machine.AgreeFrom below.length
      w₂.machine) (hfiles : w₂.files = s.files) :
    ∃ below' : List Value, below.length = below'.length ∧
      w₂ = ({ s with journal := w₂.journal } : Shared ν).world ⟨(below' ++ passed).toArray, base⟩
        depth := by
  obtain ⟨m₂, files₂, journal₂⟩ := w₂
  obtain ⟨⟨values⟩, hsize, habove, rfl⟩ := hagree.exists_values
  simp only [Shared.stack_world, Stack.size_mk, List.length_append] at hsize
  change values.length = _ at hsize
  simp only [Shared.stack_world, List.drop_left] at habove
  obtain rfl : files₂ = s.files := hfiles
  refine ⟨values.take below.length, ?_, ?_⟩
  · rw [List.length_take, hsize]
    omega
  · rw [← habove, List.take_append_drop]
    rfl

/-- A call that returns in one of two such worlds returns the same in the other. -/
theorem exists_alike_of_callReturns {reply : Reply} {w₁' : World ν}
    (hbase : w₁.machine.stack.base ≤ w₁.machine.stack.values.size)
    (hagree : w₁.machine.AgreeFrom (w₁.machine.stack.size - arguments) w₂.machine)
    (hfiles : w₂.files = w₁.files) (hreturn : w₁.CallReturns name arguments reply w₁') :
    ∃ w₂', w₂.CallReturns name arguments reply w₂' ∧
      World.AlikeFrom (w₁.machine.stack.size - arguments) w₁ w₂ w₁' w₂' := by
  have hdispatch₂ := hagree.dispatch_eq name arguments
  cases hdispatch : w₁.machine.dispatch name arguments with
  | error failure =>
    rw [hdispatch] at hdispatch₂
    obtain ⟨rfl, rfl⟩ := callReturns_of_dispatch_error hdispatch hreturn
    exact ⟨_, callReturns_dispatch_error hdispatch₂, World.alikeFrom_fail hagree hfiles failure⟩
  | ok callee =>
    rw [hdispatch] at hdispatch₂
    obtain ⟨s, below, passed, base, depth, hbelow, rfl, rfl⟩ :=
      exists_arguments hbase (dispatch_ok hdispatch).1
    have hslot : (s.world ⟨(below ++ passed).toArray, base⟩ depth).machine.stack.size
        - passed.length = below.length := by
      rw [Shared.stack_world, Stack.size_mk, List.length_append, Nat.add_sub_cancel]
    rw [hslot] at hagree ⊢
    obtain ⟨below', hlength, hw₂⟩ := exists_counterpart hagree hfiles
    generalize w₂.journal = journal at hw₂
    subst hw₂
    have hbelow' : base ≤ below'.length := hlength ▸ hbelow
    cases callee with
    | code chunk index =>
      obtain ⟨s', outcome, hends, rfl, rfl⟩ := (callReturns_code_iff hbelow hdispatch).mp hreturn
      obtain ⟨s₀, rfl, hends'⟩ := exists_ends_of_ends
        (fun s ↦ codeMachine s below depth name chunk index passed)
        (fun past s ↦ codeMachine_precededBy past s below depth name chunk index passed) hends
        journal
      refine ⟨_, (callReturns_code_iff hbelow' hdispatch₂).mpr ⟨_, outcome, ?_, rfl, rfl⟩,
        alikeFrom_afterCode s s₀ hlength base depth passed journal outcome⟩
      rw [codeMachine, ← enter_congr hlength]
      exact ends_congr hlength depth hends'
    | host function =>
      by_cases hdepth : s.limits.callDepth ≤ depth
      · obtain ⟨rfl, rfl⟩ := callReturns_of_depth_exceeded hdispatch hdepth hreturn
        exact ⟨_, callReturns_depth_exceeded hdispatch₂ hdepth,
          World.alikeFrom_log_fail hagree rfl _ _⟩
      · obtain ⟨s', status, window, hends, rfl, rfl⟩ :=
          (callReturns_host_iff hbelow hdispatch hdepth).mp hreturn
        obtain ⟨s₀, rfl, hends'⟩ := exists_ends_of_ends
          (fun s ↦ hostMachine s name function passed)
          (fun past s ↦ hostMachine_precededBy past s name function passed) hends journal
        exact ⟨_, (callReturns_host_iff hbelow' hdispatch₂ hdepth).mpr
            ⟨_, status, window, ends_congr hlength (depth + 1) hends', rfl, rfl⟩,
          alikeFrom_afterHost s s₀ hlength base depth passed journal window name status⟩

end Calls

/-- A callee neither sees nor changes what is below its arguments: in two states that differ only
there, a call returns in both or in neither, with the same reply, and leaves alike worlds. -/
theorem call_sees_only_its_arguments {w₁ w₂ : World ν} {program : HostProgram ν}
    {calls : List (HostCall ν)} (hreach : Config.Reachable ⟨w₁, .host program, calls⟩)
    (name : String) (arguments : Nat)
    (hagree : w₁.machine.AgreeFrom (w₁.machine.stack.size - arguments) w₂.machine)
    (hfiles : w₂.files = w₁.files) :
    (∀ reply, (∃ w', w₁.CallReturns name arguments reply w') ↔
        ∃ w', w₂.CallReturns name arguments reply w') ∧
      ∀ reply₁ reply₂ w₁' w₂', w₁.CallReturns name arguments reply₁ w₁' →
        w₂.CallReturns name arguments reply₂ w₂' →
        reply₁ = reply₂ ∧
          World.AlikeFrom (w₁.machine.stack.size - arguments) w₁ w₂ w₁' w₂' := by
  have hbase := base_le_of_reachable hreach
  refine ⟨fun reply ↦ ⟨?_, ?_⟩, ?_⟩
  · rintro ⟨w₁', hreturn⟩
    obtain ⟨w₂', hreturn₂, -⟩ := exists_alike_of_callReturns hbase hagree hfiles hreturn
    exact ⟨w₂', hreturn₂⟩
  · rintro ⟨w₂', hreturn⟩
    have hagree₂ : w₂.machine.AgreeFrom (w₂.machine.stack.size - arguments) w₁.machine := by
      rw [hagree.1]
      exact hagree.symm
    have hbase₂ : w₂.machine.stack.base ≤ w₂.machine.stack.values.size := by
      obtain ⟨values, hsize, -, hmachine⟩ := hagree.exists_values
      rw [hmachine]
      exact Nat.le_trans hbase (Nat.le_of_eq hsize.symm)
    obtain ⟨w₁', hreturn₁, -⟩ := exists_alike_of_callReturns hbase₂ hagree₂ hfiles.symm hreturn
    exact ⟨w₁', hreturn₁⟩
  · intro reply₁ reply₂ w₁' w₂' hreturn₁ hreturn₂
    obtain ⟨w, hreturn, halike⟩ := exists_alike_of_callReturns hbase hagree hfiles hreturn₁
    obtain ⟨rfl, rfl⟩ := hreturn.unique hreturn₂
    exact ⟨rfl, halike⟩

/-! ## A callee that tries to look below -/

namespace Peeking

/-- A host function that pushes the value below its argument, or null if it sees none. -/
def peek : HostFunction Empty :=
  ⟨1, .ask (.value (-2)) fun found ↦ .act (.push (found.getD .null)) fun _ ↦ .done .ok⟩

def hosts : HostRegistry Empty :=
  HostRegistry.register {} "peek" peek

def journal : Array (Event Empty) :=
  #[.logged (.registered "peek" 1 false)]

/-- A machine with an argument on top of another value. -/
def world (below : Value) : World Empty :=
  ⟨{ stack := ⟨#[below, .bool true], 0⟩, hosts }, {}, journal⟩

/-- The machine after a call of `peek`. -/
def worldAfter (below : Value) : World Empty :=
  ⟨{ stack := ⟨#[below, .bool true, .null], 0⟩, hosts }, {},
    journal.push (.logged (.hostCalled "peek" 1))⟩

theorem reachable (below : Value) : Config.Reachable ⟨world below, .host (.done .ok), []⟩ := by
  let program : HostProgram Empty := .register "peek" 1 peek.body fun _ ↦
    .act (.push below) fun _ ↦ .act (.push (.bool true)) fun _ ↦ .done .ok
  have hstart : Config.Reachable (.start ⟨{}, {}, #[]⟩ program) := .fresh {} {} #[] program
  have hregistered : Config.Reachable ⟨⟨{ hosts }, {}, journal⟩,
      .host (.act (.push below) fun _ ↦ .act (.push (.bool true)) fun _ ↦ .done .ok), []⟩ := by
    refine hstart.step ?_
    simp [Config.start, Config.step, Config.hostStep, World.register, World.log,
      HostRegistry.contains, program, hosts, journal, peek]
  exact .step (.step hregistered rfl) rfl

theorem callReturns (below : Value) :
    (world below).CallReturns "peek" 1 (.ok ()) (worldAfter below) := by
  have hget : hosts.get? "peek" = some peek := by
    simp [hosts, HostRegistry.get?, HostRegistry.register]
  have hdispatch : (world below).machine.dispatch "peek" 1 = .ok (.host peek) := by
    have harity : peek.arity = 1 := rfl
    simp [Machine.dispatch, world, Stack.height, hget, harity]
  exact (@callReturns_host_iff Empty (.ofWorld (world below)) [below] [.bool true] 0 0 "peek"
    (.ok ()) (worldAfter below) peek (Nat.zero_le _) hdispatch (Nat.not_succ_le_zero _)).mpr
      ⟨_, .ok, [.bool true, .null], ⟨3, rfl⟩, rfl, rfl⟩

end Peeking

theorem call_sees_only_its_arguments_peeking :
    Config.Reachable ⟨Peeking.world .null, .host (.done .ok), []⟩ ∧
      (Peeking.world .null).machine.AgreeFrom 1 (Peeking.world (.bool false)).machine ∧
      (Peeking.world (.bool false)).CallReturns "peek" 1 (.ok ())
        (Peeking.worldAfter (.bool false)) ∧
      World.AlikeFrom 1 (Peeking.world .null) (Peeking.world (.bool false))
        (Peeking.worldAfter .null) (Peeking.worldAfter (.bool false)) := by
  have hagree : (Peeking.world .null).machine.AgreeFrom 1 (Peeking.world (.bool false)).machine :=
    ⟨rfl, rfl, rfl⟩
  obtain ⟨-, halike⟩ := call_sees_only_its_arguments (Peeking.reachable .null) "peek" 1 hagree rfl
  refine ⟨Peeking.reachable .null, hagree, Peeking.callReturns _, ?_⟩
  exact (halike _ _ _ _ (Peeking.callReturns _) (Peeking.callReturns _)).2

end Bytecode
