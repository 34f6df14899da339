import Bytecode.Proofs.Separate.Host

/-!
# Where a step leads

Calls, returns and traps move control between host code and bytecode, in several places of the step
function. Here all ways are listed, with what becomes of the depth: what an instruction can lead to
(`Config.AfterInstruction`), what a call by host code can lead to (`Config.AfterCall`), and what the
end of a host function can lead to (`Config.AfterClose`). None of these steps loads a chunk,
registers a function or sets a limit (`Machine.Keeps`).

What depends on control alone is then proved by cases, without opening the step function.
-/

namespace Bytecode

variable {ν : Type}

/-! ## Jumps -/

/-- Only a jump makes execution go on elsewhere in the function, and it goes on at its target. -/
def Instruction.Directs (i : Instruction) : Flow → Prop
  | .jump target => (i.opcode = .jump ∨ i.opcode = .jumpIfFalse) ∧ target = i.arg1.toNat
  | .next | .call _ | .host | .ret => True

namespace Exec

/-- The computation has no results but those of which `P` holds. -/
def Yields {α : Type} (x : Exec α) (P : α → Prop) : Prop :=
  ∀ store a store', x store = .ok a store' → P a

variable {α β : Type} {P : β → Prop}

theorem yields_pure {b : β} (h : P b) : (pure b : Exec β).Yields P := by
  intro store a store' hrun
  cases hrun
  exact h

theorem yields_throw (kind : TrapKind) : (throw kind : Exec β).Yields P := by
  intro store a store' hrun
  cases hrun

theorem yields_bind {x : Exec α} {f : α → Exec β} (h : ∀ a, (f a).Yields P) :
    (x >>= f).Yields P := by
  intro store b store' hrun
  change EStateM.bind x f store = .ok b store' at hrun
  rw [EStateM.bind] at hrun
  split at hrun
  · exact h _ _ _ _ hrun
  · cases hrun

end Exec

open Exec in
theorem Instruction.directs_exec (chunk : Chunk) (limit : Nat) (frame : Frame) (i : Instruction) :
    (i.exec chunk limit frame).Yields i.Directs := by
  rw [exec]
  cases hop : i.opcode with
  | nop | call | callHost | ret => exact yields_pure trivial
  | const =>
    dsimp only
    split
    · exact yields_bind fun _ ↦ yields_pure trivial
    · exact yields_throw _
  | pop => exact yields_bind fun _ ↦ yields_pure trivial
  | dup | isType => exact yields_bind fun _ ↦ yields_bind fun _ ↦ yields_pure trivial
  | loadLocal | storeLocal | getGlobal | setGlobal | unary =>
    exact yields_bind fun _ ↦ yields_bind fun _ ↦ yields_bind fun _ ↦ yields_pure trivial
  | binary =>
    exact yields_bind fun _ ↦ yields_bind fun _ ↦ yields_bind fun _ ↦ yields_bind fun _ ↦
      yields_pure trivial
  | jump => exact yields_pure ⟨.inl hop, rfl⟩
  | jumpIfFalse =>
    refine yields_bind fun value ↦ ?_
    split
    · exact yields_pure ⟨.inr hop, rfl⟩
    · exact yields_pure trivial
    · exact yields_throw _

/-! ## What is kept -/

/-- The same chunk is loaded, the same functions are registered and the same limits are set, and
`depth` calls are live. -/
structure Machine.Keeps (m : Machine ν) (depth : Nat) (m' : Machine ν) : Prop where
  chunk : m'.chunk = m.chunk
  hosts : m'.hosts = m.hosts
  limits : m'.limits = m.limits
  depth : m'.depth = depth

namespace Machine

theorem Keeps.trans {m m' m'' : Machine ν} {depth depth' : Nat} (h : m.Keeps depth m')
    (h' : m'.Keeps depth' m'') : m.Keeps depth' m'' :=
  ⟨h'.chunk.trans h.chunk, h'.hosts.trans h.hosts, h'.limits.trans h.limits, h'.depth⟩

variable {m m' : Machine ν} {chunk : Chunk} {function base : Nat} {frame : Frame}

/-- A frame is entered below the limit only. -/
theorem enterFrame_ok (h : m.enterFrame chunk function base = (.ok frame, m')) :
    m.depth < m.limits.callDepth ∧ m.Keeps (m.depth + 1) m' := by
  rw [enterFrame] at h
  split at h
  · cases h
  split at h
  · cases h
  rename_i hdepth
  dsimp only at h
  split at h
  · cases h
  · cases h
    exact ⟨Nat.lt_of_not_le hdepth, rfl, rfl, rfl, rfl⟩

theorem enterFrame_error {kind : TrapKind}
    (h : m.enterFrame chunk function base = (.error kind, m')) : m' = m := by
  rw [enterFrame] at h
  split at h
  · cases h
    rfl
  split at h
  · cases h
    rfl
  dsimp only at h
  split at h
  · cases h
    rfl
  · cases h

/-- Bytecode calls a host function below the limit only. -/
theorem depth_lt_of_hostTarget {i : Instruction} {target : String × HostFunction ν}
    (h : m.hostTarget chunk frame i = .ok target) : m.depth < m.limits.callDepth := by
  rw [hostTarget] at h
  split at h
  · cases h
  dsimp only at h
  split at h
  · cases h
  split at h
  · cases h
  split at h
  · cases h
  split at h
  · cases h
  · rename_i hdepth
    exact Nat.lt_of_not_le hdepth

end Machine

/-! ## Functions that are found -/

theorem exists_get?_of_hostTarget {m : Machine ν} {chunk : Chunk} {frame : Frame}
    {i : Instruction} {name : String} {function : HostFunction ν}
    (h : m.hostTarget chunk frame i = .ok (name, function)) :
    ∃ name, m.hosts.get? name = some function := by
  unfold Machine.hostTarget at h
  split at h
  · cases h
  dsimp only at h
  split at h
  · cases h
  · rename_i bytes _ found hfound
    obtain ⟨key, -, hget⟩ := Option.bind_eq_some_iff.mp hfound
    split at h
    · cases h
    split at h
    · cases h
    split at h
    · cases h
    · cases h
      exact ⟨key, hget⟩

theorem get?_of_dispatch {m : Machine ν} {name : String} {arguments : Nat}
    {function : HostFunction ν} (h : m.dispatch name arguments = .ok (.host function)) :
    m.hosts.get? name = some function := by
  unfold Machine.dispatch at h
  split at h
  · cases h
  split at h
  · cases h
  split at h
  · rename_i found hfound
    split at h
    · cases h
      exact hfound
    · cases h
  · split at h
    · cases h
    split at h
    · cases h
    split at h <;> cases h

/-! ## Instructions -/

/-- The run with a new executing frame. The one before waits for it after its call instruction. -/
def CodeRun.enter (run : CodeRun ν) (frame : Frame) : CodeRun ν :=
  { run with frame, outer := { run.frame with pc := run.frame.pc + 1 } :: run.outer }

namespace Config

/-- What an instruction can lead to. -/
inductive AfterInstruction (w : World ν) (run : CodeRun ν) (calls : List (HostCall ν)) :
    Config ν → Prop where
  /-- The run is over, by the return from its first frame or by a trap. -/
  | ends (reply : Reply) (w' : World ν) (h : w.machine.Keeps run.depthBefore w'.machine) :
    AfterInstruction w run calls ⟨w', .host (run.resume reply), calls⟩
  /-- The frame goes on. -/
  | goes (i : Instruction) (pc : Nat) (w' : World ν)
    (hi : run.chunk.instruction? run.frame.function run.frame.pc = some i)
    (hpc : pc = run.frame.pc + 1 ∨
      (i.opcode = .jump ∨ i.opcode = .jumpIfFalse) ∧ pc = i.arg1.toNat)
    (h : w.machine.Keeps w.machine.depth w'.machine) :
    AfterInstruction w run calls ⟨w', .code (run.goto pc), calls⟩
  /-- A frame is entered. -/
  | enters (i : Instruction) (frame : Frame) (w' : World ν)
    (hi : run.chunk.instruction? run.frame.function run.frame.pc = some i)
    (hdepth : w.machine.depth < w.machine.limits.callDepth)
    (h : w.machine.Keeps (w.machine.depth + 1) w'.machine) :
    AfterInstruction w run calls ⟨w', .code (run.enter frame), calls⟩
  /-- The frame is left for the one that waits for it. -/
  | leaves (frame : Frame) (outer : List Frame) (w' : World ν) (houter : run.outer = frame :: outer)
    (h : w.machine.Keeps (w.machine.depth - 1) w'.machine) :
    AfterInstruction w run calls ⟨w', .code { run with frame, outer }, calls⟩
  /-- A host function is called. -/
  | opens (i : Instruction) (name key : String) (outerBase window : Nat)
    (function : HostFunction ν) (w' : World ν)
    (hi : run.chunk.instruction? run.frame.function run.frame.pc = some i)
    (hfunction : w.machine.hosts.get? key = some function)
    (hdepth : w.machine.depth < w.machine.limits.callDepth)
    (h : w.machine.Keeps (w.machine.depth + 1) w'.machine) :
    AfterInstruction w run calls
      ⟨w', .host function.body, ⟨name, outerBase, .code run window⟩ :: calls⟩

section Instructions

variable {w w' : World ν} {run : CodeRun ν} {i : Instruction} (calls : List (HostCall ν))

theorem afterInstruction_trap (kind : TrapKind) (h : w.machine.Keeps w.machine.depth w'.machine) :
    AfterInstruction w run calls (Config.trap w' run calls kind) :=
  .ends _ _ ⟨h.chunk, h.hosts, h.limits, rfl⟩

theorem afterInstruction_callInstruction (callee : Nat)
    (hi : run.chunk.instruction? run.frame.function run.frame.pc = some i)
    (h : w.machine.Keeps w.machine.depth w'.machine) :
    AfterInstruction w run calls (Config.callInstruction w' run calls callee) := by
  rw [callInstruction]
  dsimp only
  split
  · exact afterInstruction_trap calls .stackUnderflow h
  split
  · rename_i hframe
    obtain ⟨hdepth, hkeeps⟩ := Machine.enterFrame_ok hframe
    rw [h.depth, h.limits] at hdepth
    rw [h.depth] at hkeeps
    exact .enters i _ _ hi hdepth (h.trans hkeeps)
  · rename_i hframe
    cases Machine.enterFrame_error hframe
    exact afterInstruction_trap calls _ h

theorem afterInstruction_hostInstruction
    (hi : run.chunk.instruction? run.frame.function run.frame.pc = some i)
    (h : w.machine.Keeps w.machine.depth w'.machine) :
    AfterInstruction w run calls (Config.hostInstruction w' run calls i) := by
  rw [hostInstruction]
  split
  · exact afterInstruction_trap calls _ h
  · rename_i name function htarget
    obtain ⟨key, hfunction⟩ := exists_get?_of_hostTarget htarget
    have hdepth := Machine.depth_lt_of_hostTarget htarget
    rw [h.hosts] at hfunction
    rw [h.depth, h.limits] at hdepth
    refine .opens i name key _ _ function _ hi hfunction hdepth ⟨h.chunk, h.hosts, h.limits, ?_⟩
    exact congrArg (· + 1) h.depth

theorem afterInstruction_returnInstruction (h : w.machine.Keeps w.machine.depth w'.machine) :
    AfterInstruction w run calls (Config.returnInstruction w' run calls) := by
  rw [returnInstruction]
  dsimp only
  split
  · exact afterInstruction_trap calls .stackUnderflow ⟨h.chunk, h.hosts, h.limits, h.depth⟩
  split
  · rename_i frame outer houter
    exact .leaves frame outer _ houter ⟨h.chunk, h.hosts, h.limits, congrArg (· - 1) h.depth⟩
  · exact .ends _ _ ⟨h.chunk, h.hosts, h.limits, rfl⟩

end Instructions

theorem afterInstruction_codeStep (w : World ν) (run : CodeRun ν) (calls : List (HostCall ν)) :
    AfterInstruction w run calls (Config.codeStep w run calls) := by
  rw [codeStep]
  split
  · exact afterInstruction_trap calls _ ⟨rfl, rfl, rfl, rfl⟩
  rename_i i hi
  dsimp only
  split
  · exact afterInstruction_trap calls _ ⟨rfl, rfl, rfl, rfl⟩
  · rename_i flow store hexec
    have hdirects := i.directs_exec _ _ _ _ _ _ hexec
    cases flow with
    | next => exact .goes i _ _ hi (.inl rfl) ⟨rfl, rfl, rfl, rfl⟩
    | jump target => exact .goes i target _ hi (.inr hdirects) ⟨rfl, rfl, rfl, rfl⟩
    | call callee => exact afterInstruction_callInstruction calls callee hi ⟨rfl, rfl, rfl, rfl⟩
    | host => exact afterInstruction_hostInstruction calls hi ⟨rfl, rfl, rfl, rfl⟩
    | ret => exact afterInstruction_returnInstruction calls ⟨rfl, rfl, rfl, rfl⟩

/-! ## Calls by host code -/

/-- What a call by host code can lead to. -/
inductive AfterCall (w : World ν) (calls : List (HostCall ν)) (resume : Reply → HostProgram ν) :
    Config ν → Prop where
  /-- The call fails at once. -/
  | fails (reply : Reply) (w' : World ν) (h : w.machine.Keeps w.machine.depth w'.machine) :
    AfterCall w calls resume ⟨w', .host (resume reply), calls⟩
  /-- A host function is called. -/
  | opens (name key : String) (outerBase : Nat) (function : HostFunction ν) (w' : World ν)
    (hfunction : w.machine.hosts.get? key = some function)
    (hdepth : w.machine.depth < w.machine.limits.callDepth)
    (h : w.machine.Keeps (w.machine.depth + 1) w'.machine) :
    AfterCall w calls resume
      ⟨w', .host function.body, ⟨name, outerBase, .program resume⟩ :: calls⟩
  /-- A run of the loaded chunk begins. -/
  | enters (chunk : Chunk) (frame : Frame) (argumentsBase : Nat) (w' : World ν)
    (hchunk : w.machine.chunk = some chunk)
    (hdepth : w.machine.depth < w.machine.limits.callDepth)
    (h : w.machine.Keeps (w.machine.depth + 1) w'.machine) :
    AfterCall w calls resume
      ⟨w', .code ⟨chunk, frame, [], argumentsBase, w.machine.depth, resume⟩, calls⟩

theorem afterCall_call (w : World ν) (calls : List (HostCall ν)) (name : String) (arguments : Nat)
    (resume : Reply → HostProgram ν) :
    AfterCall w calls resume (Config.call w calls name arguments resume) := by
  rw [call]
  rcases hdispatch : w.machine.dispatch name arguments with failure | function | ⟨chunk, index⟩
  · exact .fails _ _ ⟨rfl, rfl, rfl, rfl⟩
  · dsimp only [callHost]
    split
    · exact .fails _ _ ⟨rfl, rfl, rfl, rfl⟩
    · rename_i hdepth
      exact .opens name name _ function _ (get?_of_dispatch hdispatch) (Nat.lt_of_not_le hdepth)
        ⟨rfl, rfl, rfl, rfl⟩
  · have hchunk := (Separate.dispatch_ok hdispatch).2.1
    dsimp only [callCode, World.log]
    split
    · rename_i hframe
      obtain ⟨hdepth, hkeeps⟩ := Machine.enterFrame_ok hframe
      exact .enters chunk _ _ _ hchunk hdepth hkeeps
    · rename_i hframe
      cases Machine.enterFrame_error hframe
      exact .fails _ _ ⟨rfl, rfl, rfl, rfl⟩

/-! ## The end of a host function -/

/-- What the end of a host function can lead to, depending on who waits for it. -/
inductive AfterClose (w : World ν) (calls : List (HostCall ν)) : Caller ν → Config ν → Prop where
  /-- Host code goes on. -/
  | resumes (resume : Reply → HostProgram ν) (reply : Reply) (w' : World ν)
    (h : w.machine.Keeps (w.machine.depth - 1) w'.machine) :
    AfterClose w calls (.program resume) ⟨w', .host (resume reply), calls⟩
  /-- Bytecode goes on. -/
  | goes (run : CodeRun ν) (window : Nat) (w' : World ν)
    (h : w.machine.Keeps (w.machine.depth - 1) w'.machine) :
    AfterClose w calls (.code run window) ⟨w', .code (run.goto (run.frame.pc + 1)), calls⟩
  /-- Bytecode ends in a trap. -/
  | ends (run : CodeRun ν) (window : Nat) (reply : Reply) (w' : World ν)
    (h : w.machine.Keeps run.depthBefore w'.machine) :
    AfterClose w calls (.code run window) ⟨w', .host (run.resume reply), calls⟩

theorem afterClose_closeCall (w : World ν) (call : HostCall ν) (calls : List (HostCall ν))
    (status : Status) : AfterClose w calls call.caller (Config.closeCall w call calls status) := by
  rw [closeCall]
  dsimp only
  rcases call.caller with resume | ⟨run, window⟩
  · dsimp only
    split
    · exact .resumes resume _ _ ⟨rfl, rfl, rfl, rfl⟩
    · exact .resumes resume _ _ ⟨rfl, rfl, rfl, rfl⟩
  · dsimp only
    split
    · exact .ends run window _ _ ⟨rfl, rfl, rfl, rfl⟩
    split
    · exact .goes run window _ ⟨rfl, rfl, rfl, rfl⟩
    · exact .ends run window _ _ ⟨rfl, rfl, rfl, rfl⟩

end Config

end Bytecode
