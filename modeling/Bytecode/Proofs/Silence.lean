import Bytecode.Machine.Step

/-!
# Erasing the error state

Failures are recorded and announced, but nothing that a machine does depends on what was recorded or
on who listens. So a machine may as well forget its error state and its journal before a step: up to
what is forgotten, it comes to the same (`step_silent`).

There is one exception. Host code may ask for the record of the last failure, and what it does then
is its own business (`Config.Unread`).
-/

namespace Bytecode

variable {ν : Type}

def Machine.silent (m : Machine ν) : Machine ν :=
  { m with errors := {} }

/-- The world without its error state and its journal. -/
def World.silent (w : World ν) : World ν :=
  ⟨w.machine.silent, w.files, #[]⟩

def Config.silent (c : Config ν) : Config ν :=
  { c with world := c.world.silent }

def Progress.silent : Progress ν → Progress ν
  | .more c => .more c.silent
  | .halted status w => .halted status w.silent

section Silent

variable (w : World ν)

@[simp] theorem World.toStore_silent : w.silent.machine.toStore = w.machine.toStore := rfl

@[simp] theorem World.stack_silent : w.silent.machine.stack = w.machine.stack := rfl

@[simp] theorem World.globals_silent : w.silent.machine.globals = w.machine.globals := rfl

@[simp] theorem World.chunk_silent : w.silent.machine.chunk = w.machine.chunk := rfl

@[simp] theorem World.hosts_silent : w.silent.machine.hosts = w.machine.hosts := rfl

@[simp] theorem World.limits_silent : w.silent.machine.limits = w.machine.limits := rfl

@[simp] theorem World.files_silent : w.silent.files = w.files := rfl

end Silent

/-! ## Operations -/

/-- The reply of an operation, and the world after it without error state and journal. -/
def silentOutcome (outcome : Reply × World ν) : Reply × World ν :=
  (outcome.1, outcome.2.silent)

/-- The operation takes no notice of the error state and the journal. -/
def Unheeding (operation : World ν → Reply × World ν) : Prop :=
  ∀ w, silentOutcome (operation w.silent) = silentOutcome (operation w)

theorem World.unheeding_load (bytes : Bytes) : Unheeding fun w : World ν ↦ w.load bytes := by
  intro w
  simp only [load]
  split <;> rfl

theorem World.unheeding_register (name : String) (function : HostFunction ν) :
    Unheeding fun w ↦ w.register name function := by
  intro w
  simp only [register]
  split <;> rfl

theorem World.unheeding_setGlobal (name : String) :
    Unheeding fun w : World ν ↦ w.setGlobal name := by
  intro w
  simp only [setGlobal, stack_silent]
  split
  · rfl
  · generalize w.machine.stack.takeTop = taken
    obtain ⟨_ | value, rest⟩ := taken <;> rfl

theorem World.unheeding_getGlobal (name : String) :
    Unheeding fun w : World ν ↦ w.getGlobal name := by
  intro w
  simp only [getGlobal, globals_silent]
  split
  · rfl
  · generalize w.machine.globals.get? _ = bound
    cases bound <;> rfl

theorem World.unheeding_loadFile (path : Bytes) :
    Unheeding fun w : World ν ↦ w.loadFile path := by
  intro w
  simp only [loadFile, files_silent]
  cases w.files.load path with
  | error cause => rfl
  | ok bytes => exact unheeding_load bytes w

theorem World.unheeding_saveFile (path : Bytes) :
    Unheeding fun w : World ν ↦ w.saveFile path := by
  intro w
  simp only [saveFile, files_silent, chunk_silent]
  cases w.machine.chunk with
  | none => rfl
  | some chunk =>
    dsimp only
    rcases w.files.store path chunk.encode with ⟨_ | _, files⟩ <;> rfl

theorem Command.unheeding_perform (command : Command ν) :
    Unheeding fun w ↦ command.perform w := by
  intro w
  cases command with
  | setGlobal name => exact World.unheeding_setGlobal name w
  | getGlobal name => exact World.unheeding_getGlobal name w
  | load bytes => exact World.unheeding_load bytes w
  | loadFile path => exact World.unheeding_loadFile path w
  | saveFile path => exact World.unheeding_saveFile path w
  | push | pop | setTop | clearError | raise | setListener | setLimits | writeFile => rfl

/-! ## Bytecode -/

namespace Config

variable (w : World ν) (run : CodeRun ν) (calls : List (HostCall ν))

theorem hostTarget_silent (chunk : Chunk) (frame : Bytecode.Frame) (i : Instruction) :
    w.silent.machine.hostTarget chunk frame i = w.machine.hostTarget chunk frame i := rfl

theorem hostInstruction_silent (i : Instruction) :
    (hostInstruction w.silent run calls i).silent = (hostInstruction w run calls i).silent := by
  simp only [hostInstruction, hostTarget_silent]
  cases w.machine.hostTarget run.chunk run.frame i with
  | error kind => rfl
  | ok target => rfl

theorem enterFrame_silent (chunk : Chunk) (function base : Nat) :
    w.silent.machine.enterFrame chunk function base
      = ((w.machine.enterFrame chunk function base).1,
        (w.machine.enterFrame chunk function base).2.silent) := by
  unfold Machine.enterFrame
  cases chunk.functions[function]? with
  | none => rfl
  | some f =>
    by_cases hcalls : w.machine.limits.callDepth ≤ w.machine.depth
    · have hsilent : w.silent.machine.limits.callDepth ≤ w.silent.machine.depth := hcalls
      simp only [if_pos hcalls, if_pos hsilent]
      rfl
    · have hsilent : ¬w.silent.machine.limits.callDepth ≤ w.silent.machine.depth := hcalls
      simp only [if_neg hcalls, if_neg hsilent]
      by_cases hstack : w.machine.limits.stackDepth < base + f.locals.toNat
      · have hsilent : w.silent.machine.limits.stackDepth < base + f.locals.toNat := hstack
        simp only [if_pos hstack, if_pos hsilent]
        rfl
      · have hsilent : ¬w.silent.machine.limits.stackDepth < base + f.locals.toNat := hstack
        simp only [if_neg hstack, if_neg hsilent]
        rfl

theorem callInstruction_silent (callee : Nat) :
    (callInstruction w.silent run calls callee).silent
      = (callInstruction w run calls callee).silent := by
  simp only [callInstruction, World.stack_silent, enterFrame_silent]
  split
  · rfl
  · generalize w.machine.enterFrame _ _ _ = entered
    obtain ⟨_ | frame, machine⟩ := entered <;> rfl

theorem returnInstruction_silent :
    (returnInstruction w.silent run calls).silent = (returnInstruction w run calls).silent := by
  simp only [returnInstruction, World.stack_silent]
  generalize w.machine.stack.popAbove run.frame.floor = popped
  obtain ⟨_ | value, rest⟩ := popped
  · rfl
  · cases run.outer <;> rfl

theorem codeStep_silent :
    (codeStep w.silent run calls).silent = (codeStep w run calls).silent := by
  simp only [codeStep]
  cases run.chunk.instruction? run.frame.function run.frame.pc with
  | none => rfl
  | some i =>
    simp only [World.toStore_silent, World.limits_silent]
    generalize i.exec run.chunk w.machine.limits.stackDepth run.frame w.machine.toStore = result
    cases result with
    | error kind store => rfl
    | ok flow store =>
      let w' : World ν := { w with machine := { w.machine with toStore := store } }
      cases flow with
      | next | jump => rfl
      | call callee => exact callInstruction_silent w' run calls callee
      | host => exact hostInstruction_silent w' run calls i
      | ret => exact returnInstruction_silent w' run calls

/-! ## Calls and returns -/

theorem callHost_silent (name : String) (function : HostFunction ν) (arguments : Nat)
    (resume : Reply → HostProgram ν) :
    (callHost w.silent calls name function arguments resume).silent
      = (callHost w calls name function arguments resume).silent := by
  by_cases hcalls : w.machine.limits.callDepth ≤ w.machine.depth
  · have hlogged : (w.log (.hostCalled name arguments)).machine.limits.callDepth
        ≤ (w.log (.hostCalled name arguments)).machine.depth := hcalls
    have hsilent : (w.silent.log (.hostCalled name arguments)).machine.limits.callDepth
        ≤ (w.silent.log (.hostCalled name arguments)).machine.depth := hcalls
    simp only [callHost, if_pos hlogged, if_pos hsilent]
    rfl
  · have hlogged : ¬(w.log (.hostCalled name arguments)).machine.limits.callDepth
        ≤ (w.log (.hostCalled name arguments)).machine.depth := hcalls
    have hsilent : ¬(w.silent.log (.hostCalled name arguments)).machine.limits.callDepth
        ≤ (w.silent.log (.hostCalled name arguments)).machine.depth := hcalls
    simp only [callHost, if_neg hlogged, if_neg hsilent]
    rfl

theorem callCode_silent (name : String) (chunk : Chunk) (index arguments : Nat)
    (resume : Reply → HostProgram ν) :
    (callCode w.silent calls name chunk index arguments resume).silent
      = (callCode w calls name chunk index arguments resume).silent := by
  simp only [callCode, World.log, World.stack_silent, enterFrame_silent]
  generalize w.machine.enterFrame _ _ _ = entered
  obtain ⟨_ | frame, machine⟩ := entered <;> rfl

theorem call_silent (name : String) (arguments : Nat) (resume : Reply → HostProgram ν) :
    (call w.silent calls name arguments resume).silent
      = (call w calls name arguments resume).silent := by
  have hdispatch : w.silent.machine.dispatch name arguments = w.machine.dispatch name arguments :=
    rfl
  rw [call, call, hdispatch]
  cases w.machine.dispatch name arguments with
  | error failure => rfl
  | ok callee =>
    cases callee with
    | host function => exact callHost_silent w calls name function arguments resume
    | code chunk index => exact callCode_silent w calls name chunk index arguments resume

theorem closeCall_silent (call : HostCall ν) (status : Status) :
    (closeCall w.silent call calls status).silent = (closeCall w call calls status).silent := by
  unfold closeCall
  cases call.caller with
  | program resume => cases status.isOk <;> rfl
  | code run window =>
    cases status.isOk with
    | false => rfl
    | true =>
      have hstack : (w.silent.closeCall call.outerBase).machine.stack
          = (w.closeCall call.outerBase).machine.stack := rfl
      simp only [hstack]
      by_cases hcount : (w.closeCall call.outerBase).machine.stack.size - window = 1
      · simp only [if_pos hcount]
        rfl
      · simp only [if_neg hcount]
        rfl

end Config

/-! ## Steps -/

theorem Query.answer_silent {query : Query} (h : query ≠ .errorRecord) (w : World ν) :
    query.answer w.silent = query.answer w := by
  cases query with
  | errorRecord => exact absurd rfl h
  | _ => rfl

/-- An operation that takes no notice goes on in the same way. -/
theorem Unheeding.more {operation : World ν → Reply × World ν} (h : Unheeding operation)
    (w : World ν) (next : Reply → HostProgram ν) (calls : List (HostCall ν)) :
    Progress.silent (.more ⟨(operation w.silent).2, .host (next (operation w.silent).1), calls⟩)
      = Progress.silent (.more ⟨(operation w).2, .host (next (operation w).1), calls⟩) := by
  obtain ⟨hreply, hworld⟩ := Prod.mk.inj (h w)
  simp only [Progress.silent, Config.silent, hreply, hworld]

/-- The next step does not let the record of the last failure decide how host code goes on. -/
def Config.Unread (c : Config ν) : Prop :=
  ∀ next, c.control = .host (.ask .errorRecord next) → ∀ a b, next a = next b

/-- A step takes no notice of the error state and the journal. -/
theorem step_silent {c : Config ν} (h : c.Unread) : c.silent.step.silent = c.step.silent := by
  obtain ⟨w, control, calls⟩ := c
  cases control with
  | code run => exact congrArg Progress.more (Config.codeStep_silent w run calls)
  | host program =>
    cases program with
    | done status =>
      cases calls with
      | nil => rfl
      | cons call calls =>
        exact congrArg Progress.more (Config.closeCall_silent w calls call status)
    | ask query next =>
      -- The one question whose answer is erased is the one that must not matter.
      have hnext : next (query.answer w.silent) = next (query.answer w) := by
        by_cases hquery : query = .errorRecord
        · subst hquery
          exact h next rfl _ _
        · rw [Query.answer_silent hquery]
      change Progress.silent (.more ⟨w.silent, .host (next (query.answer w.silent)), calls⟩) = _
      rw [hnext]
      rfl
    | act command next => exact command.unheeding_perform.more w next calls
    | register name arity body next =>
      exact (World.unheeding_register name ⟨arity, body⟩).more w next calls
    | call name arguments next =>
      exact congrArg Progress.more (Config.call_silent w calls name arguments next)
    | note note next => rfl

end Bytecode
