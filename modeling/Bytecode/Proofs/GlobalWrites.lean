import Bytecode.Proofs.History
import Bytecode.Proofs.LoadGate

/-!
# The last write wins

A global is written in two ways: host code takes the top value of its window off and binds it to a
name, and a bytecode instruction does the same with its top operand and a name from the constants of
its chunk. `Config.write?` reads off a configuration which write its next step makes. It never looks
at the table of globals, so the history of a session's writes says what the table should hold: the
last value that was written under a name, and nothing if there was none (`lastWrite`).

Nothing else changes the table (`Config.binds_step`). A trap cuts the stack back but undoes no
write, and what a chunk has written stays when another is loaded.
-/

namespace Bytecode

open Separate

variable {ν : Type}

/-! ## Writes -/

/-- The name under which the next step binds a value. -/
def Config.binds? (c : Config ν) : Option Bytes :=
  match c.control with
  | .host (.act (.setGlobal name) _) =>
    match (c.world.setGlobal name).1 with
    | .ok () => some (Text.Utf8.encode name)
    | .error _ => none
  | .host _ => none
  | .code run =>
    match run.chunk.instruction? run.frame.function run.frame.pc with
    | some i => if i.opcode = .setGlobal then run.chunk.stringConstant? i.arg1 else none
    | none => none

/-- The write that the next step makes, if it makes one: the name, and the value on top. -/
def Config.write? (c : Config ν) : Option (Bytes × Value) := do
  let name ← c.binds?
  let value ← c.world.machine.stack.values.back?
  return (name, value)

/-- The value that was last written under a name. -/
def lastWrite (writes : List (Bytes × Value)) (name : Bytes) : Option Value :=
  writes.reverse.lookup name

theorem lastWrite_concat (writes : List (Bytes × Value)) (name other : Bytes) (value : Value) :
    lastWrite (writes ++ [(name, value)]) other
      = if other = name then some value else lastWrite writes other := by
  rw [lastWrite, lastWrite, List.reverse_concat, List.lookup_cons]
  by_cases h : other = name
  · rw [if_pos h, beq_iff_eq.mpr h]
  · rw [if_neg h, beq_eq_false_iff_ne.mpr h]

/-- What a write makes of the machine: the value is taken off the stack and bound. Without a write
the globals are what they were. -/
def World.Binds (w w' : World ν) : Option (Bytes × Value) → Prop
  | none => w'.machine.globals = w.machine.globals
  | some (name, value) =>
    w'.machine.globals = w.machine.globals.set name value ∧
      w.machine.stack = w'.machine.stack.push value

/-! ## Instructions -/

namespace Separate

variable {b : Awaited}

/-- An instruction that does not trap leaves the globals as they were. -/
def KeepsGlobals (globals : Globals) : Except TrapKind (Flow × Frame × Globals) → Prop
  | .ok (_, _, after) => after = globals
  | .error _ => True

section Instruction

variable {globals : Globals} {i : Instruction}

theorem KeepsGlobals.bind {α : Type} {x : Except TrapKind α}
    {k : α → Except TrapKind (Flow × Frame × Globals)} (h : ∀ a, KeepsGlobals globals (k a)) :
    KeepsGlobals globals (x >>= k) := by
  cases x with
  | ok a => exact h a
  | error kind => trivial

/-- There is one instruction that binds a global. -/
theorem keepsGlobals_exec (chunk : Chunk) (limit under : Nat) (f : Frame)
    (hop : i.opcode ≠ .setGlobal) :
    KeepsGlobals globals (f.exec chunk limit under globals i) := by
  unfold Frame.exec
  cases hi : i.opcode with
  | nop | jump | call | callHost | ret => rfl
  | const =>
    cases chunk.constants[i.arg1.toNat]? with
    | some value => exact .bind fun _ ↦ rfl
    | none => trivial
  | pop => exact .bind fun _ ↦ rfl
  | dup | isType | loadLocal | storeLocal => exact .bind fun _ ↦ .bind fun _ ↦ rfl
  | getGlobal =>
    refine .bind fun name ↦ ?_
    cases globals.get? name with
    | some value => exact .bind fun _ ↦ rfl
    | none => trivial
  | setGlobal => exact absurd hi hop
  | unary op => exact .bind fun _ ↦ .bind fun _ ↦ .bind fun _ ↦ rfl
  | binary op => exact .bind fun _ ↦ .bind fun _ ↦ .bind fun _ ↦ .bind fun _ ↦ rfl
  | jumpIfFalse =>
    refine .bind fun (value, operands) ↦ ?_
    cases value with
    | bool condition => cases condition <;> rfl
    | i64 | f64 | null | str => trivial

end Instruction

/-! ## Steps -/

section Turn

variable {s : Shared ν} {run : Run} {below depth : Nat}

theorem globals_callTurn (callee : Nat) :
    (run.callTurn s below depth callee).globals s.globals = s.globals := by
  rw [Run.callTurn]
  dsimp only
  split
  · rfl
  · split <;> rfl

theorem globals_hostTurn (i : Instruction) :
    (run.hostTurn s depth i).globals s.globals = s.globals := by
  rw [Run.hostTurn]
  split
  · rfl
  dsimp only
  split
  · rfl
  split
  · rfl
  split
  · rfl
  split <;> rfl

theorem globals_returnTurn : (run.returnTurn s).globals s.globals = s.globals := by
  rw [Run.returnTurn]
  split
  · rfl
  · split <;> rfl

theorem globals_turn {i : Instruction}
    (hi : run.chunk.instruction? run.frame.function run.frame.pc = some i)
    (hop : i.opcode ≠ .setGlobal) :
    (run.turn s below depth).globals s.globals = s.globals := by
  have hexec := @keepsGlobals_exec s.globals i run.chunk s.limits.stackDepth
    (below + (stacked run.outer).length + run.frame.locals.length) run.frame hop
  rw [Run.turn, hi]
  dsimp only
  split
  · rfl
  · rename_i flow frame globals hok
    rw [hok] at hexec
    cases flow with
    | next | jump => exact hexec
    | call callee => exact globals_callTurn callee
    | host => exact globals_hostTurn i
    | ret => exact globals_returnTurn

/-- Verified bytecode that comes to a write has the name and the value for it. -/
theorem turn_setGlobal (s : Shared ν) (below depth : Nat) {function : FunctionDef} {i : Instruction}
    (h : run.Located function i) (hop : i.opcode = .setGlobal) :
    ∃ name value operands, run.chunk.stringConstant? i.arg1 = some name ∧
      run.frame.operands = value :: operands ∧
      run.turn s below depth
        = .goes ({ run with frame := { run.frame with operands } }.goto (run.frame.pc + 1))
            (s.globals.set name value) := by
  have hresolves := h.resolves
  have hpops := h.fits.1
  rw [Instruction.Resolves, hop] at hresolves
  rw [Instruction.effect, hop] at hpops
  obtain ⟨name, hname⟩ := hresolves
  obtain ⟨value, operands, hoperands⟩ := List.exists_cons_of_length_pos hpops
  refine ⟨name, value, operands, hname, hoperands, ?_⟩
  rw [Run.turn, h.instruction?_eq]
  simp only [Frame.exec, hop, Separate.name, hname, hoperands, pop, bind, Except.bind, pure,
    Except.pure]

end Turn

/-- The top operand stands on top of all other values of a run. -/
theorem Run.values_of_operands (run : Run) {value : Value} {operands : List Value}
    (h : run.frame.operands = value :: operands) {pc : Nat} :
    run.values = ({ run with frame := { run.frame with operands } }.goto pc).values ++ [value] := by
  simp [Run.values, Run.goto, Frame.values, h]

end Separate

/-! ## Host operations -/

/-- The value taken off the window was on top. -/
theorem Stack.eq_push_of_takeTop {stack rest : Stack} {value : Value}
    (h : stack.takeTop = (some value, rest)) : stack = rest.push value := by
  rw [takeTop] at h
  split at h
  · cases h
  · obtain ⟨hback, rfl⟩ := Prod.mk.inj h
    obtain ⟨values, hvalues⟩ := Array.back?_eq_some_iff.mp hback
    rw [push, hvalues, Array.pop_push, ← hvalues]

theorem Stack.back?_push (stack : Stack) (value : Value) :
    (stack.push value).values.back? = some value :=
  Array.back?_push

/-- Host code binds the value on top of its window, or nothing. -/
theorem World.binds_setGlobal (w : World ν) (name : String) :
    (∃ value, (w.setGlobal name).1 = .ok () ∧ w.machine.stack.values.back? = some value ∧
      w.Binds (w.setGlobal name).2 (some (Text.Utf8.encode name, value))) ∨
    ∃ failure, (w.setGlobal name).1 = .error failure ∧ w.Binds (w.setGlobal name).2 none := by
  rw [setGlobal]
  by_cases hname : name = ""
  · rw [if_pos hname]
    exact .inr ⟨_, rfl, rfl⟩
  · rw [if_neg hname]
    cases htop : w.machine.stack.takeTop with
    | mk top rest =>
      cases top with
      | none => exact .inr ⟨_, rfl, rfl⟩
      | some value =>
        have hstack := Stack.eq_push_of_takeTop htop
        refine .inl ⟨value, rfl, ?_, rfl, hstack⟩
        rw [hstack, Stack.back?_push]

theorem World.globals_register (w : World ν) (name : String) (function : HostFunction ν) :
    (w.register name function).2.machine.globals = w.machine.globals := by
  rw [register]
  split <;> rfl

namespace Config

variable {c : Config ν}

theorem write?_of_binds?_eq_none (h : c.binds? = none) : c.write? = none := by
  rw [write?, h]
  rfl

theorem write?_eq_some {name : Bytes} {value : Value} (hname : c.binds? = some name)
    (hvalue : c.world.machine.stack.values.back? = some value) :
    c.write? = some (name, value) := by
  rw [write?, hname, hvalue]
  rfl

theorem binds?_code {w : World ν} {run : CodeRun ν} {calls : List (HostCall ν)} {i : Instruction}
    (hi : run.chunk.instruction? run.frame.function run.frame.pc = some i) :
    binds? ⟨w, .code run, calls⟩
      = if i.opcode = .setGlobal then run.chunk.stringConstant? i.arg1 else none := by
  simp only [binds?, hi]

theorem binds_act (w : World ν) (command : Command ν) (next : Reply → HostProgram ν)
    (calls : List (HostCall ν)) :
    w.Binds (command.perform w).2 (write? ⟨w, .host (.act command next), calls⟩) := by
  cases command with
  | setGlobal name =>
    rcases w.binds_setGlobal name with ⟨value, hreply, hvalue, hbinds⟩ | ⟨failure, hreply, hbinds⟩
    · have hname : binds? ⟨w, .host (.act (.setGlobal name) next), calls⟩
          = some (Text.Utf8.encode name) := by
        simp only [binds?, hreply]
      rw [write?_eq_some hname hvalue]
      exact hbinds
    · have hname : binds? ⟨w, .host (.act (.setGlobal name) next), calls⟩ = none := by
        simp only [binds?, hreply]
      rw [write?_of_binds?_eq_none hname]
      exact hbinds
  | _ => exact (Command.leaves_perform _ w).globals (by simp)

/-- Verified bytecode binds its top operand, or nothing. -/
theorem binds_code (s : Shared ν) {run : Run} (hrun : wellPlaced.executing run)
    (waiting : Waiting ν .host .code) {c : Config ν}
    (hc : c = Separate.Config.onto .nothing ⟨s, .code run waiting⟩) :
    c.world.Binds c.step.world c.write? := by
  obtain ⟨function, i, hlocated⟩ := exists_located hrun.1 hrun.2.1
  have hi : run.chunk.instruction? run.frame.function run.frame.pc = some i :=
    hlocated.instruction?_eq
  have hbinds : c.binds? = if i.opcode = .setGlobal then run.chunk.stringConstant? i.arg1
      else none := by
    rw [hc]
    exact binds?_code hi
  have hstep : c.step = (Separate.Progress.ofTurn s waiting (run.turn s
      (waiting.values []).length (waiting.depth 0))).onto .nothing := by
    rw [hc, step_onto]
    rfl
  by_cases hop : i.opcode = .setGlobal
  · obtain ⟨name, value, operands, hname, hoperands, hturn⟩ :=
      turn_setGlobal s (waiting.values []).length (waiting.depth 0) hlocated hop
    rw [if_pos hop, hname] at hbinds
    rw [hturn] at hstep
    -- The top operand of the executing frame is on top of the whole stack.
    have hstack : c.world.machine.stack = c.step.world.machine.stack.push value := by
      rw [hstep, hc]
      refine .trans ?_ (Stack.push_mk _ value).symm
      rw [List.append_assoc, ← run.values_of_operands hoperands]
      rfl
    have hvalue : c.world.machine.stack.values.back? = some value := by
      rw [hstack, Stack.back?_push]
    rw [write?_eq_some hbinds hvalue]
    refine ⟨?_, hstack⟩
    rw [hstep, hc]
    rfl
  · rw [if_neg hop] at hbinds
    rw [write?_of_binds?_eq_none hbinds, hstep, hc]
    refine (congrArg Shared.globals (Separate.Progress.ofWorld_onto _)).trans ?_
    refine (Shared.globals_of_lasting (lasting_ofTurn s waiting _)).trans ?_
    exact globals_turn hi hop

/-- Every step makes the write that is read off the configuration, or leaves the globals alone. -/
theorem binds_step (h : c.Reachable) : c.world.Binds c.step.world c.write? := by
  obtain ⟨own, rfl, hown⟩ := exists_onto_of_reachable wellPlaced_kept h
  have hnext := (own.step (.nothing : Outside ν).toGround).ofWorld_onto
  rw [← step_onto] at hnext
  replace hnext := congrArg Shared.globals hnext
  obtain ⟨s, control⟩ := own
  cases control with
  | code run waiting => exact binds_code s hown.2.1 waiting rfl
  | host window program waiting =>
    cases program with
    | act command next => exact binds_act _ command next _
    | register name arity body next => exact World.globals_register _ name ⟨arity, body⟩
    | done status =>
      exact hnext.trans (Shared.globals_of_lasting (lasting_done s status window waiting))
    | call name arguments next =>
      exact hnext.trans
        (Shared.globals_of_lasting (lasting_call _ s window waiting name arguments next))
    | ask query next => rfl
    | note note next => rfl

end Config

theorem World.Binds.get? {w w' : World ν} {write : Option (Bytes × Value)}
    {writes : List (Bytes × Value)} (h : w.Binds w' write)
    (hw : ∀ name, w.machine.globals.get? name = lastWrite writes name) (name : Bytes) :
    w'.machine.globals.get? name = lastWrite (writes ++ write.toList) name := by
  cases write with
  | none =>
    rw [Option.toList_none, List.append_nil, show w'.machine.globals = _ from h]
    exact hw name
  | some bound =>
    obtain ⟨other, value⟩ := bound
    rw [Option.toList_some, lastWrite_concat, h.1]
    by_cases hname : name = other
    · rw [if_pos hname, hname, Globals.get?_set_self]
    · rw [if_neg hname, Globals.get?_set_of_ne _ _ (Ne.symm hname)]
      exact hw name

/-- The table of globals holds the last write under every name. -/
theorem Config.History.get? {c : Config ν} {writes : List (Bytes × Value)}
    (h : c.History write? writes) (name : Bytes) :
    c.world.machine.globals.get? name = lastWrite writes name := by
  refine h.induction_machine
    (P := fun writes m ↦ ∀ name, m.globals.get? name = lastWrite writes name) ?_ ?_ name
  · intro limits name
    simp [Globals.get?, lastWrite]
  · intro writes c hreach hwrites
    exact (binds_step hreach).get? hwrites

/-! ## Reads -/

/-- Bytecode is at instruction `i`. -/
def Config.Executes (c : Config ν) (run : CodeRun ν) (i : Instruction) : Prop :=
  c.control = .code run ∧ run.chunk.instruction? run.frame.function run.frame.pc = some i

/-- What reading a global comes to, for host code and for bytecode, where `bound` gives the values.
Host code cannot use the empty name, and bytecode cannot push onto a full stack. -/
structure Config.ReadsGlobals (c : Config ν) (bound : Bytes → Option Value) : Prop where
  found {name : String} {value : Value} : name ≠ "" →
    bound (Text.Utf8.encode name) = some value →
    (Host.getGlobal name).Returns c.world (.ok ()) (c.world.updateStack (·.push value))
  missing {name : String} : name ≠ "" → bound (Text.Utf8.encode name) = none →
    (Host.getGlobal name).Returns c.world (.error (.globalNotFound name))
      (c.world.fail (.globalNotFound name)).2
  nameless : (Host.getGlobal "").Returns c.world (.error (.emptyName .global))
    (c.world.fail (.emptyName .global)).2
  pushes {run : CodeRun ν} {i : Instruction} {name : Bytes} {value : Value} : c.Executes run i →
    i.opcode = .getGlobal → run.chunk.stringConstant? i.arg1 = some name →
    bound name = some value → c.world.machine.stack.size < c.world.machine.limits.stackDepth →
    c.step = .more ⟨c.world.updateStack (·.push value), .code (run.goto (run.frame.pc + 1)),
      c.calls⟩
  overflows {run : CodeRun ν} {i : Instruction} {name : Bytes} {value : Value} : c.Executes run i →
    i.opcode = .getGlobal → run.chunk.stringConstant? i.arg1 = some name →
    bound name = some value → c.world.machine.limits.stackDepth ≤ c.world.machine.stack.size →
    c.step = .more (Config.trap c.world run c.calls
      (.stackOverflow c.world.machine.limits.stackDepth))
  traps {run : CodeRun ν} {i : Instruction} {name : Bytes} : c.Executes run i →
    i.opcode = .getGlobal → run.chunk.stringConstant? i.arg1 = some name → bound name = none →
    c.step = .more (Config.trap c.world run c.calls
      (.unknownGlobal (Text.Utf8.decodeLossy name)))

theorem Instruction.exec_getGlobal {chunk : Chunk} {i : Instruction} {name : Bytes}
    (hop : i.opcode = .getGlobal) (hname : chunk.stringConstant? i.arg1 = some name) (limit : Nat)
    (frame : Bytecode.Frame) (store : Store) :
    i.exec chunk limit frame store =
      match store.globals.get? name with
      | none => .error (.unknownGlobal (Text.Utf8.decodeLossy name)) store
      | some value =>
        if limit ≤ store.stack.size then .error (.stackOverflow limit) store
        else .ok .next { store with stack := store.stack.push value } := by
  rw [Instruction.exec, hop]
  dsimp only
  rw [Exec.name, hname]
  change EStateM.bind (Exec.global name) _ store = _
  rw [EStateM.bind, Exec.global]
  cases store.globals.get? name with
  | none => rfl
  | some value =>
    change EStateM.bind (Exec.push limit value) _ store = _
    rw [EStateM.bind, Exec.push]
    by_cases hfull : limit ≤ store.stack.size
    · simp only [if_pos hfull]
    · simp only [if_neg hfull]
      rfl

theorem Config.step_getGlobal {c : Config ν} {run : CodeRun ν} {i : Instruction} {name : Bytes}
    (h : c.Executes run i) (hop : i.opcode = .getGlobal)
    (hname : run.chunk.stringConstant? i.arg1 = some name) :
    c.step = .more (match c.world.machine.globals.get? name with
      | none => Config.trap c.world run c.calls (.unknownGlobal (Text.Utf8.decodeLossy name))
      | some value =>
        if c.world.machine.limits.stackDepth ≤ c.world.machine.stack.size then
          Config.trap c.world run c.calls (.stackOverflow c.world.machine.limits.stackDepth)
        else
          ⟨c.world.updateStack (·.push value), .code (run.goto (run.frame.pc + 1)), c.calls⟩) := by
  obtain ⟨w, control, calls⟩ := c
  obtain ⟨rfl, hi⟩ := h
  rw [Config.step, Config.codeStep, hi]
  dsimp only
  rw [Instruction.exec_getGlobal hop hname]
  cases w.machine.globals.get? name with
  | none => rfl
  | some value =>
    by_cases hfull : w.machine.limits.stackDepth ≤ w.machine.stack.size
    · simp only [if_pos hfull]
    · simp only [if_neg hfull]
      rfl

theorem Config.readsGlobals (c : Config ν) : c.ReadsGlobals c.world.machine.globals.get? where
  found {name value} hname hbound := by
    have hreturn := Host.returns_act c.world (.getGlobal name)
    rw [Command.perform, World.getGlobal, if_neg hname, hbound] at hreturn
    exact hreturn
  missing {name} hname hbound := by
    have hreturn := Host.returns_act c.world (.getGlobal name)
    rw [Command.perform, World.getGlobal, if_neg hname, hbound] at hreturn
    exact hreturn
  nameless := by
    have hreturn := Host.returns_act c.world (.getGlobal "")
    rw [Command.perform, World.getGlobal, if_pos rfl] at hreturn
    exact hreturn
  pushes hexecutes hop hname hbound hroom := by
    rw [step_getGlobal hexecutes hop hname, hbound]
    exact congrArg Progress.more (if_neg (Nat.not_le.mpr hroom))
  overflows hexecutes hop hname hbound hfull := by
    rw [step_getGlobal hexecutes hop hname, hbound]
    exact congrArg Progress.more (if_pos hfull)
  traps hexecutes hop hname hbound := by
    rw [step_getGlobal hexecutes hop hname, hbound]

/-- At every moment of a session a global holds the value that was last written under its name, by
host code or bytecode, and is unbound if there was no write. Reading it gives that value; it fails
for want of a binding just if there is none. A write takes its value off the stack, and no step but
a write changes any binding. -/
theorem globals_hold_their_last_write {c : Config ν} (hreach : c.Reachable) :
    (∃ writes, c.History Config.write? writes) ∧
    (∀ writes, c.History Config.write? writes →
      (∀ name, c.world.machine.globals.get? name = lastWrite writes name) ∧
        c.ReadsGlobals (lastWrite writes)) ∧
    c.world.Binds c.step.world c.write? := by
  refine ⟨hreach.exists_history _, fun writes hwrites ↦ ?_, Config.binds_step hreach⟩
  have hbound : lastWrite writes = c.world.machine.globals.get? :=
    funext fun name ↦ (hwrites.get? name).symm
  refine ⟨hwrites.get?, ?_⟩
  rw [hbound]
  exact c.readsGlobals

/-! ## A global that bytecode reads -/

namespace Bound

/-- A function that reads a global. -/
def function : FunctionDef :=
  ⟨"read", 0, 0, #[{ opcode := .getGlobal }, { opcode := .ret }]⟩

def chunk : Chunk :=
  ⟨#[.str (Text.Utf8.encode "k")], #[function]⟩

theorem verified : chunk.Verified :=
  Verify.verified_of_single (by decide) (by decide) (by decide) (by decide) (by decide)

theorem loadable : Loadable chunk.encode chunk :=
  .of_toOption nofun (by decide +kernel) verified

/-- The machine once host code has bound the global and loaded `chunk`. -/
def world (limit depth : Nat) (events : List (Event Empty)) : World Empty :=
  ⟨{ globals := .set {} (Text.Utf8.encode "k") .null, chunk := some chunk,
      limits := { stackDepth := limit }, depth }, {},
    (.logged (.loaded 1 1 false) :: events).toArray⟩

def calling : HostProgram Empty :=
  .call "read" 0 fun _ ↦ .done .ok

def run : CodeRun Empty :=
  ⟨chunk, ⟨0, 0, 0, 0⟩, [], 0, 0, fun _ ↦ .done .ok⟩

/-- The machine when `read` has just been called. -/
def reading (limit : Nat) : Config Empty :=
  ⟨world limit 1 [.logged (.codeCalled "read" 0)], .code run, []⟩

theorem executes (limit : Nat) : (reading limit).Executes run { opcode := .getGlobal } :=
  ⟨rfl, rfl⟩

theorem step_calling (limit : Nat) :
    Config.step ⟨world limit 0 [], .host calling, []⟩ = .more (reading limit) := by
  have hshadow : (world limit 0 []).machine.hosts.get? "read" = none := by
    simp [world, HostRegistry.get?]
  have hdispatch : (world limit 0 []).machine.dispatch "read" 0 = .ok (.code chunk 0) :=
    @dispatch_of_loaded _ (world limit 0 []).machine chunk 0 function verified rfl rfl hshadow
      (Nat.zero_le _)
  change Progress.more (Config.call (world limit 0 []) [] "read" 0 fun _ ↦ .done .ok) = _
  rw [Config.call, hdispatch]
  rfl

theorem history (limit : Nat) :
    (reading limit).History Config.write? [(Text.Utf8.encode "k", .null)] := by
  let program : HostProgram Empty :=
    .act (.push .null) fun _ ↦ .act (.setGlobal "k") fun _ ↦
      .act (.load chunk.encode) fun _ ↦ calling
  have hstart : Config.History Config.write? []
      (.start ⟨{ limits := { stackDepth := limit } }, {}, #[]⟩ program) :=
    .fresh { stackDepth := limit } {} #[] program
  have hpushed := hstart.step_unseen rfl rfl
  have hbound := hpushed.step rfl
  have hloaded := hbound.step_unseen (step_load loadable _ _ _) rfl
  exact hloaded.step_unseen (step_calling limit) rfl

end Bound

theorem globals_hold_their_last_write_reading :
    (Bound.reading 1).Reachable ∧
      (Bound.reading 1).History Config.write? [(Text.Utf8.encode "k", .null)] ∧
      (Bound.reading 1).world.machine.globals.get? (Text.Utf8.encode "k") = some .null ∧
      (Bound.reading 1).step = .more ⟨(Bound.reading 1).world.updateStack (·.push .null),
        .code (Bound.run.goto 1), []⟩ := by
  have hhistory := Bound.history 1
  obtain ⟨-, hall, -⟩ := globals_hold_their_last_write hhistory.reachable
  obtain ⟨hget, hreads⟩ := hall _ hhistory
  exact ⟨hhistory.reachable, hhistory, hget _,
    hreads.pushes (Bound.executes 1) rfl rfl rfl (by decide)⟩

/-- A read can fail although nothing is amiss with the binding: host code that asks for the empty
name is not told that nothing is bound to it, and bytecode does not get the value of a bound global
if the stack is full. -/
theorem read_of_global_can_fail_otherwise :
    ((Config.start ⟨{}, {}, #[]⟩ (.done .ok) : Config Empty).History Config.write? [] ∧
      lastWrite [] (Text.Utf8.encode "") = none ∧
      ∀ w', ¬(Host.getGlobal "").Returns (⟨{}, {}, #[]⟩ : World Empty)
        (.error (.globalNotFound "")) w') ∧
    (Bound.reading 0).History Config.write? [(Text.Utf8.encode "k", .null)] ∧
      (Bound.reading 0).Executes Bound.run { opcode := .getGlobal } ∧
      Bound.run.chunk.stringConstant? 0 = some (Text.Utf8.encode "k") ∧
      (Bound.reading 0).step
        = .more (Config.trap (Bound.reading 0).world Bound.run [] (.stackOverflow 0)) := by
  refine ⟨⟨.fresh {} {} #[] _, rfl, fun w' hreturn ↦ ?_⟩, Bound.history 0, Bound.executes 0, rfl,
    ?_⟩
  · have hempty := (Config.start (⟨{}, {}, #[]⟩ : World Empty) (.done .ok)).readsGlobals.nameless
    obtain ⟨hreply, -⟩ := hempty.unique hreturn
    cases hreply
  · have hbound := (Bound.history 0).get? (Text.Utf8.encode "k")
    exact (Bound.reading 0).readsGlobals.overflows (Bound.executes 0) rfl rfl hbound (Nat.zero_le _)

end Bytecode
