import Bytecode.Proofs.Separate.Traps

/-!
# Traps are never successes

Every trap is reported with the status of a failure. Only a host function's own status could be that
of a success, and bytecode passes it on only if it is not.
-/

namespace Bytecode.Separate

variable {ν : Type}

/-! ## Instructions -/

/-- A trap, if this is one, is not reported as a success. -/
def Faults {α : Type} : Except TrapKind α → Prop
  | .error kind => kind.status ≠ .ok
  | .ok _ => True

theorem Faults.of_error {α : Type} {x : Except TrapKind α} {kind : TrapKind} (h : Faults x)
    (hx : x = .error kind) : kind.status ≠ .ok := by
  rwa [hx] at h

theorem status_ne_ok_of_explains {chunk : Chunk} {i : Instruction} {kind : TrapKind}
    (h : Explains chunk i kind) (hop : i.opcode ≠ .callHost) : kind.status ≠ .ok := by
  cases kind with
  | hostFailed name status =>
    -- The only kind whose status is not fixed.
    rcases h with hfault | ⟨hhost, -⟩
    · cases hfault
    · exact absurd hhost hop
  | _ => simp [TrapKind.status]

theorem faults_exec (chunk : Chunk) (limit under : Nat) (globals : Globals) (i : Instruction)
    (f : Frame) : Faults (f.exec chunk limit under globals i) := by
  cases hexec : f.exec chunk limit under globals i with
  | ok result => trivial
  | error kind =>
    refine status_ne_ok_of_explains (accounts_exec.of_error hexec) fun hop ↦ ?_
    rw [Frame.exec, hop] at hexec
    cases hexec

/-- A run that ends in a trap is not reported as a success. -/
def Outcome.Faults : Outcome → Prop
  | .error trap => trap.status ≠ .ok
  | .ok _ => True

def Turn.Faults : Turn ν → Prop
  | .ends outcome => outcome.Faults
  | .goes _ _ | .calls _ _ _ _ => True

theorem faults_enter (limits : Limits) (chunk : Chunk) (function under depth : Nat)
    (arguments : List Value) :
    Separate.Faults (Frame.enter limits chunk function under depth arguments) := by
  rw [Frame.enter]
  split
  · simp [Separate.Faults, TrapKind.status]
  split
  · simp [Separate.Faults, TrapKind.status]
  split
  · simp [Separate.Faults, TrapKind.status]
  · trivial

section Turn

variable {run : Run}

theorem faults_trap {kind : TrapKind} (h : kind.status ≠ .ok) :
    (run.trap kind : Turn ν).Faults := h

theorem faults_callTurn (s : Shared ν) (below depth callee : Nat) :
    (run.callTurn s below depth callee).Faults := by
  unfold Run.callTurn
  dsimp only
  split
  · exact faults_trap (by simp [TrapKind.status])
  split
  · rename_i henter
    exact faults_trap (Faults.of_error (faults_enter ..) henter)
  · trivial

theorem faults_hostTurn (s : Shared ν) (depth : Nat) (i : Instruction) :
    (run.hostTurn s depth i).Faults := by
  unfold Run.hostTurn
  dsimp only
  split
  · exact faults_trap (by simp [TrapKind.status])
  split
  · exact faults_trap (by simp [TrapKind.status])
  split
  · exact faults_trap (by simp [TrapKind.status])
  split
  · exact faults_trap (by simp [TrapKind.status])
  split
  · exact faults_trap (by simp [TrapKind.status])
  · trivial

theorem faults_returnTurn (s : Shared ν) : (run.returnTurn s).Faults := by
  unfold Run.returnTurn
  split
  · exact faults_trap (by simp [TrapKind.status])
  split <;> trivial

theorem faults_turn (s : Shared ν) (below depth : Nat) : (run.turn s below depth).Faults := by
  unfold Run.turn
  dsimp only
  split
  · exact faults_trap (by simp [TrapKind.status])
  split
  · rename_i hexec
    exact faults_trap (Faults.of_error (faults_exec ..) hexec)
  split
  · trivial
  · trivial
  · exact faults_callTurn s below depth _
  · exact faults_hostTurn s depth _
  · exact faults_returnTurn s

/-- A host function's own status is passed on only if it is not that of a success. -/
theorem faults_accept (s : Shared ν) (name : String) (status : Status) (results : List Value) :
    (run.accept s name status results).Faults := by
  unfold Run.accept
  split
  · rename_i hstatus
    refine faults_trap fun hok ↦ ?_
    rw [TrapKind.status] at hok
    rw [hok] at hstatus
    cases hstatus
  split
  · trivial
  · exact faults_trap (by simp [TrapKind.status])

end Turn

end Bytecode.Separate
