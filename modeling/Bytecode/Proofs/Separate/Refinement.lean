import Bytecode.Proofs.Separate.Host
import Bytecode.Proofs.Separate.Instruction

/-!
# The single stack refines separate frames

A step of the machine on the placement of a configuration is the placement of a step of the
separate machine: `(c.onto o).step = (c.step o.toGround).onto o`, for every configuration and
everything that may be outside.

## Why no invariant is needed

The equation holds of *all* separate configurations, also of those that no run reaches. What would
have to be an invariant of the machine with one stack (bases below floors, floors below the top,
windows inside the stack, counters equal to the number of live frames) is part of how a
configuration is placed, and so it holds before and after a step by construction.

The proof follows the definition of a step. Every exit from bytecode goes through `trap_onto` or
`finish_ok_onto`, which is where the stack is cut back to the first argument of the call.
-/

namespace Bytecode.Separate

variable {ν : Type} {b : Awaited} (o : Outside ν)

/-! ## Bytecode -/

theorem finish_ok_onto (s : Shared ν) (value : Value) (waiting : Waiting ν b .code) :
    (Progress.finish s (.ok value) waiting).onto o
      = .more ⟨s.world ⟨(waiting.values o.values ++ [value]).toArray, waiting.base o⟩
          (waiting.depth o.depth), .host (waiting.resume o (.ok ())), waiting.calls o⟩ := by
  cases waiting with
  | outside => rfl
  | entry caller rest =>
    simp only [Progress.finish, Progress.onto, Config.onto, Shared.hostWorld, Waiting.values,
      List.append_assoc]
    rfl

theorem finish_error_onto (s : Shared ν) (trap : Trap) (waiting : Waiting ν b .code) :
    (Progress.finish s (.error trap) waiting).onto o
      = .more ⟨(s.fail (.trapped trap)).world ⟨(waiting.values o.values).toArray, waiting.base o⟩
          (waiting.depth o.depth), .host (waiting.resume o (.error (.trapped trap))),
          waiting.calls o⟩ := by
  cases waiting with
  | outside => rfl
  | entry caller rest => rfl

/-- A trap cuts the stack back to where the run began, whatever the frames hold by then. -/
theorem trap_onto (s : Shared ν) (run : Run) (waiting : Waiting ν b .code) (rest : List Value)
    (depth : Nat) (kind : TrapKind) :
    Bytecode.Progress.more (Bytecode.Config.trap
        (s.world ⟨(waiting.values o.values ++ rest).toArray, waiting.base o⟩ depth)
        (run.above o waiting) (waiting.calls o) kind)
      = (Progress.ofTurn s waiting (run.trap kind)).onto o := by
  rw [Run.trap, Progress.ofTurn, finish_error_onto,
    ← Stack.truncate_append rest (waiting.base_le o)]
  rfl

theorem enterFrame_placed (s : Shared ν) (below arguments : List Value) (base depth : Nat)
    (chunk : Chunk) (function : Nat) :
    (s.world ⟨(below ++ arguments).toArray, base⟩ depth).machine.enterFrame chunk function
        below.length
      = match Frame.enter s.limits chunk function below.length depth arguments with
        | .ok f => (.ok (f.placed below.length),
            (s.world ⟨(below ++ f.values).toArray, base⟩ (depth + 1)).machine)
        | .error kind =>
          (.error kind, (s.world ⟨(below ++ arguments).toArray, base⟩ depth).machine) := by
  rw [Frame.enter, Machine.enterFrame]
  cases chunk.functions[function]? with
  | none => rfl
  | some f =>
    change (if s.limits.callDepth ≤ depth then _
      else if s.limits.stackDepth < below.length + f.locals.toNat then _ else _) = _
    by_cases hdepth : s.limits.callDepth ≤ depth
    · simp only [if_pos hdepth, Shared.limits_world]
    · by_cases hstack : s.limits.stackDepth < below.length + f.locals.toNat
      · simp only [if_neg hdepth, if_pos hstack, Shared.limits_world]
      · have hfit : Stack.fit (below ++ arguments).toArray (below.length + f.locals.toNat)
            = (below ++ freshLocals f.locals.toNat arguments).toArray := by
          rw [Stack.fit_toArray, freshLocals]
          simp [List.take_append, List.take_of_length_le, Nat.add_sub_add_left]
        simp only [if_neg hdepth, if_neg hstack, Shared.world, Stack.resize, hfit, Frame.placed,
          Frame.values, length_freshLocals, List.reverse_nil, List.append_nil]

/-! ### Calls of functions of the chunk -/

namespace Run

theorem values_dropOperands (run : Run) (count : Nat) :
    (run.dropOperands count).values ++ run.topOperands count = run.values := by
  simp only [values, Frame.values, dropOperands, topOperands, List.append_assoc,
    ← List.reverse_append, List.take_append_drop]

theorem length_topOperands {run : Run} {count : Nat} (h : count ≤ run.frame.operands.length) :
    (run.topOperands count).length = count := by
  simp [topOperands, Nat.min_eq_left h]

@[simp] theorem values_goto (run : Run) (pc : Nat) : (run.goto pc).values = run.values := rfl

end Run

/-- The top operands of the innermost frame, apart from everything below them. -/
theorem values_split (run : Run) (waiting : Waiting ν b .code) (count : Nat) :
    waiting.values o.values ++ run.values
      = waiting.values o.values ++ (run.dropOperands count).values ++ run.topOperands count := by
  rw [List.append_assoc, Run.values_dropOperands]

theorem length_sub_operands {run : Run} (waiting : Waiting ν b .code) {count : Nat}
    (h : count ≤ run.frame.operands.length) :
    (waiting.values o.values ++ run.values).length - count
      = (waiting.values o.values ++ (run.dropOperands count).values).length := by
  rw [values_split o run waiting count, List.length_append, Run.length_topOperands h,
    Nat.add_sub_cancel]

/-- A frame has too few operands on the stack just if it has too few of its own. -/
theorem lt_floor_add (run : Run) (waiting : Waiting ν b .code) (count : Nat) :
    (waiting.values o.values ++ run.values).length < (run.above o waiting).frame.floor + count
      ↔ run.frame.operands.length < count := by
  simp only [Run.above, Run.placed, Frame.placed, Run.values, Frame.values, List.length_append,
    List.length_reverse]
  omega

theorem callInstruction_onto (s : Shared ν) (run : Run) (waiting : Waiting ν b .code)
    (callee : Nat) :
    Bytecode.Progress.more (Bytecode.Config.callInstruction (s.codeWorld o run waiting)
        (run.above o waiting) (waiting.calls o) callee)
      = (Progress.ofTurn s waiting (run.callTurn s (waiting.values o.values).length
          (waiting.depth o.depth) callee)).onto o := by
  have hlt := lt_floor_add o run waiting (run.chunk.functionArity callee)
  have hsize : (s.codeWorld o run waiting).machine.stack.size
      = (waiting.values o.values ++ run.values).length := Stack.size_mk _
  simp only [Bytecode.Config.callInstruction, Run.callTurn, hsize, Run.chunk_above, hlt]
  split
  · exact trap_onto o s run waiting run.values _ _
  · rename_i hle
    generalize harity : run.chunk.functionArity callee = arity at *
    have hbase := length_sub_operands o waiting (Nat.le_of_not_lt hle)
    -- The new frame begins below the arguments, so the caller is placed without them.
    have henter := enterFrame_placed s (waiting.values o.values ++ (run.dropOperands arity).values)
      (run.topOperands arity) (waiting.base o) (waiting.depth o.depth + run.depth) run.chunk callee
    rw [← values_split] at henter
    have hunder : (waiting.values o.values).length
          + ((run.dropOperands arity).goto (run.frame.pc + 1)).values.length
        = (waiting.values o.values ++ (run.dropOperands arity).values).length := by
      rw [Run.values_goto, List.length_append]
    rw [hbase, hunder, Shared.codeWorld, henter]
    cases Frame.enter s.limits run.chunk callee
        (waiting.values o.values ++ (run.dropOperands arity).values).length
        (waiting.depth o.depth + run.depth) (run.topOperands arity) with
    | error kind => exact trap_onto o s run waiting run.values _ _
    | ok f =>
      simp only [List.append_assoc, List.length_append]
      rfl

/-! ### Calls of host functions and returns -/

/-- Which host function is called, and whether, is the same on the stack as in the frame. -/
theorem hostTurn_eq (s : Shared ν) (run : Run) (waiting : Waiting ν b .code) (i : Instruction) :
    run.hostTurn s (waiting.depth o.depth) i
      = match (s.codeWorld o run waiting).machine.hostTarget run.chunk
            (run.above o waiting).frame i with
        | .error kind => run.trap kind
        | .ok (name, function) =>
          .calls name function (run.topOperands i.arg2.toNat) (run.dropOperands i.arg2.toNat) := by
  have hlt := lt_floor_add o run waiting i.arg2.toNat
  simp only [Machine.hostTarget, Run.hostTurn, Shared.codeWorld, Shared.stack_world,
    Shared.hosts_world, Shared.limits_world, Shared.depth_world, Stack.size_mk, hlt]
  cases run.chunk.stringConstant? i.arg1 with
  | none => rfl
  | some bytes =>
    dsimp only
    cases (Text.Utf8.decode? bytes).bind s.hosts.get? with
    | none => rfl
    | some function =>
      by_cases harity : function.arity ≠ i.arg2.toNat
      · simp only [if_pos harity]
      by_cases hfew : run.frame.operands.length < i.arg2.toNat
      · simp only [if_neg harity, if_pos hfew]
      by_cases hdepth : s.limits.callDepth ≤ waiting.depth o.depth + run.depth
      · simp only [if_neg harity, if_neg hfew, hdepth, ↓reduceIte]
      · simp only [if_neg harity, if_neg hfew, hdepth, ↓reduceIte]

theorem le_operands_of_hostTarget {s : Shared ν} {run : Run} {waiting : Waiting ν b .code}
    {i : Instruction} {target : String × HostFunction ν}
    (h : (s.codeWorld o run waiting).machine.hostTarget run.chunk (run.above o waiting).frame i
      = .ok target) : i.arg2.toNat ≤ run.frame.operands.length := by
  have hlt := lt_floor_add o run waiting i.arg2.toNat
  simp only [Machine.hostTarget, Shared.codeWorld, Shared.stack_world, Stack.size_mk, hlt] at h
  refine Nat.le_of_not_lt fun hfew ↦ ?_
  simp only [if_pos hfew] at h
  split at h
  · cases h
  · split at h
    · cases h
    · split at h <;> cases h

/-- Opening a window on the top values of a stack. -/
theorem openCall_world (s : Shared ν) {below : List Value} (passed : List Value) {base : Nat}
    (h : base ≤ below.length) (depth : Nat) (calls : List (HostCall ν)) (name : String)
    (function : HostFunction ν) (caller : Caller ν) :
    Bytecode.Config.openCall (s.world ⟨(below ++ passed).toArray, base⟩ depth) calls name function
        passed.length caller
      = ⟨s.world ⟨(below ++ passed).toArray, below.length⟩ (depth + 1), .host function.body,
          ⟨name, base, caller⟩ :: calls⟩ := by
  simp only [Bytecode.Config.openCall, Shared.stack_world, Stack.openWindow_append passed h]
  rfl

/-- The arguments of a host function stand on top of the stack and become its window. -/
theorem openCall_onto (s : Shared ν) (run : Run) (waiting : Waiting ν b .code) (name : String)
    (function : HostFunction ν) {count : Nat} (h : count ≤ run.frame.operands.length) :
    Bytecode.Config.openCall (s.codeWorld o run waiting) (waiting.calls o) name function count
        (.code (run.above o waiting) ((waiting.values o.values ++ run.values).length - count))
      = Config.onto o ⟨s, .host (run.topOperands count) function.body
          (.bytecode name (run.dropOperands count) waiting)⟩ := by
  have hbase : waiting.base o
      ≤ (waiting.values o.values ++ (run.dropOperands count).values).length := by
    rw [List.length_append]
    exact Nat.le_add_right_of_le (waiting.base_le o)
  have hopen := openCall_world s (run.topOperands count) hbase (waiting.depth o.depth + run.depth)
    (waiting.calls o) name function (.code (run.above o waiting)
      ((waiting.values o.values ++ run.values).length - count))
  have hwindow : (waiting.values o.values ++ run.values).length - count
      = (waiting.values o.values).length + (run.dropOperands count).values.length := by
    rw [length_sub_operands o waiting h, List.length_append]
  rw [← values_split, Run.length_topOperands h] at hopen
  rw [Shared.codeWorld, hopen, hwindow, values_split o run waiting count]
  rfl

theorem hostInstruction_onto (s : Shared ν) (run : Run) (waiting : Waiting ν b .code)
    (i : Instruction) :
    Bytecode.Progress.more (Bytecode.Config.hostInstruction (s.codeWorld o run waiting)
        (run.above o waiting) (waiting.calls o) i)
      = (Progress.ofTurn s waiting (run.hostTurn s (waiting.depth o.depth) i)).onto o := by
  have hsize : (s.codeWorld o run waiting).machine.stack.size
      = (waiting.values o.values ++ run.values).length := Stack.size_mk _
  rw [Bytecode.Config.hostInstruction, hostTurn_eq, Run.chunk_above]
  cases htarget : (s.codeWorld o run waiting).machine.hostTarget run.chunk
      (run.above o waiting).frame i with
  | error kind => exact trap_onto o s run waiting run.values _ _
  | ok target =>
    obtain ⟨name, function⟩ := target
    have hoperands := le_operands_of_hostTarget o htarget
    simp only [hsize, openCall_onto o s run waiting name function hoperands]
    rfl

theorem returnInstruction_onto (s : Shared ν) (run : Run) (waiting : Waiting ν b .code) :
    Bytecode.Progress.more (Bytecode.Config.returnInstruction (s.codeWorld o run waiting)
        (run.above o waiting) (waiting.calls o))
      = (Progress.ofTurn s waiting (run.returnTurn s)).onto o := by
  have hfloor : (run.above o waiting).frame.floor
      = (waiting.values o.values ++ stacked run.outer ++ run.frame.locals).length := by
    simp [Run.above, Run.placed, Frame.placed, Nat.add_assoc]
  have hbase : (run.above o waiting).frame.base
      = (waiting.values o.values ++ stacked run.outer).length := by
    simp [Run.above, Run.placed, Frame.placed]
  simp only [Bytecode.Config.returnInstruction, Run.returnTurn, Shared.codeWorld, Shared.world]
  -- The result is the last value of the stack; all others of the frame go with it.
  rcases hops : run.frame.operands with _ | ⟨value, operands⟩
  · have hle : (waiting.values o.values ++ run.values).length
        ≤ (run.above o waiting).frame.floor := by
      simp [hfloor, Run.values, Frame.values, hops]
    simp only [Stack.popAbove_of_length_le hle]
    exact trap_onto o s run waiting run.values _ _
  · have hvalues : waiting.values o.values ++ run.values
        = waiting.values o.values ++ stacked run.outer ++ (run.frame.locals ++ operands.reverse)
          ++ [value] := by
      simp [Run.values, Frame.values, hops]
    have hle : (run.above o waiting).frame.floor ≤ (waiting.values o.values ++ stacked run.outer
        ++ (run.frame.locals ++ operands.reverse)).length := by
      simp [hfloor]
    have hcut : waiting.base o ≤ (waiting.values o.values ++ stacked run.outer).length := by
      rw [List.length_append]
      exact Nat.le_add_right_of_le (waiting.base_le o)
    simp only [hvalues, Stack.popAbove_concat value hle, hbase, Stack.truncate_append _ hcut,
      Stack.push_mk]
    cases houter : run.outer with
    | nil =>
      have hplaced : (run.above o waiting).outer = [] := by
        rw [Run.above, Run.placed, houter, placedFrames]
      simp only [hplaced, Progress.ofTurn, finish_ok_onto, stacked_nil, List.append_nil]
      rfl
    | cons frame outer =>
      have hplaced : (run.above o waiting).outer
          = frame.placed ((waiting.values o.values).length + (stacked outer).length)
            :: placedFrames (waiting.values o.values).length outer := by
        rw [Run.above, Run.placed, houter, placedFrames]
      have hpushed : waiting.values o.values ++ stacked (frame :: outer) ++ [value]
          = waiting.values o.values ++ Run.values ⟨run.chunk,
              { frame with operands := value :: frame.operands }, outer⟩ := by
        simp [Run.values, Frame.values]
      have hdepth : waiting.depth o.depth + run.depth - 1
          = waiting.depth o.depth + (outer.length + 1) := by
        simp [Run.depth, houter]
      simp only [hplaced, hpushed, hdepth]
      rfl

/-! ### All instructions -/

theorem goto_onto (s : Shared ν) (run : Run) (waiting : Waiting ν b .code) {f : Frame}
    (globals : Globals) (pc : Nat) (hfunction : f.function = run.frame.function)
    (hlocals : f.locals.length = run.frame.locals.length) :
    (⟨({ s with globals } : Shared ν).codeWorld o { run with frame := f } waiting,
        .code ((run.above o waiting).goto pc), waiting.calls o⟩ : Bytecode.Config ν)
      = Config.onto o ⟨{ s with globals }, .code ({ run with frame := f }.goto pc) waiting⟩ := by
  simp only [Config.onto, Run.above, Run.placed, CodeRun.goto, Run.goto, Frame.placed, hfunction,
    hlocals]
  rfl

theorem exec_above (s : Shared ν) (run : Run) (waiting : Waiting ν b .code) (i : Instruction) :
    Agrees (waiting.values o.values ++ stacked run.outer) (waiting.base o) s.globals
      (i.exec run.chunk s.limits.stackDepth (run.above o waiting).frame
        (s.codeWorld o run waiting).machine.toStore)
      (run.frame.exec run.chunk s.limits.stackDepth ((waiting.values o.values).length
        + (stacked run.outer).length + run.frame.locals.length) s.globals i) := by
  have hagrees := @exec_placed (waiting.values o.values ++ stacked run.outer) (waiting.base o)
    s.limits.stackDepth s.globals run.chunk i run.frame
  rw [List.length_append, Frame.store, List.append_assoc] at hagrees
  exact hagrees

theorem codeStep_onto (s : Shared ν) (run : Run) (waiting : Waiting ν b .code) :
    Bytecode.Progress.more (Bytecode.Config.codeStep (s.codeWorld o run waiting)
        (run.above o waiting) (waiting.calls o))
      = (Config.step o.toGround ⟨s, .code run waiting⟩).onto o := by
  have hinstruction : (run.above o waiting).chunk.instruction? (run.above o waiting).frame.function
      (run.above o waiting).frame.pc = run.chunk.instruction? run.frame.function run.frame.pc := rfl
  have hlimits : (s.codeWorld o run waiting).machine.limits = s.limits := rfl
  simp only [Bytecode.Config.codeStep, Config.step, Run.turn, hinstruction]
  cases run.chunk.instruction? run.frame.function run.frame.pc with
  | none => exact trap_onto o s run waiting run.values _ _
  | some i =>
    have hstays := @exec_stays s.limits.stackDepth s.globals run.chunk
      ((waiting.values o.values).length + (stacked run.outer).length + run.frame.locals.length) i
      run.frame
    have hagrees := exec_above o s run waiting i
    simp only [Run.chunk_above, hlimits]
    generalize hflat : i.exec run.chunk s.limits.stackDepth (run.above o waiting).frame
      (s.codeWorld o run waiting).machine.toStore = flat at hagrees ⊢
    generalize run.frame.exec run.chunk s.limits.stackDepth ((waiting.values o.values).length
      + (stacked run.outer).length + run.frame.locals.length) s.globals i = own at hagrees hstays ⊢
    cases hagrees with
    | error kind rest =>
      rw [List.append_assoc]
      exact trap_onto o s run waiting (stacked run.outer ++ rest) _ _
    | ok flow f after =>
      obtain ⟨hfunction, hpc, hlocals, hflow⟩ := hstays
      -- A transfer of control leaves the frame as it was, and its own lemma says the rest.
      cases flow with
      | next | jump target =>
        refine congrArg _ (Eq.trans ?_ (goto_onto o s run waiting after _ hfunction hlocals))
        rw [Frame.store, List.append_assoc]
        rfl
      | call callee =>
        obtain ⟨rfl, rfl⟩ := hflow
        rw [← callInstruction_onto, Frame.store, List.append_assoc]
        rfl
      | host =>
        obtain ⟨rfl, rfl⟩ := hflow
        rw [← hostInstruction_onto, Frame.store, List.append_assoc]
        rfl
      | ret =>
        obtain ⟨rfl, rfl⟩ := hflow
        rw [← returnInstruction_onto, Frame.store, List.append_assoc]
        rfl

/-! ## Host code -/

theorem operate_onto {s : Shared ν} {window : List Value} (waiting : Waiting ν b .host)
    {operation : World ν → Reply × World ν} (next : Reply → HostProgram ν)
    (h : LocalAt operation s window) :
    (⟨(operation (s.hostWorld o window waiting)).2,
        .host (next (operation (s.hostWorld o window waiting)).1), waiting.calls o⟩ :
          Bytecode.Config ν)
      = (Config.operate s window waiting operation next).onto o := by
  obtain ⟨reply, s', window', h⟩ := h
  have hflat : operation (s.hostWorld o window waiting) = (reply, s'.hostWorld o window' waiting) :=
    h _ _
  have hown : operation (s.seen window) = (reply, s'.world (.windowed [] window') 0) := h [] 0
  simp only [hflat, Config.operate, hown]
  rfl

/-- Closing a window leaves its values on the stack. -/
theorem closeCall_world (s : Shared ν) {values : List Value} {outer : Nat}
    (h : outer ≤ values.length) (base depth : Nat) :
    (s.world ⟨values.toArray, base⟩ (depth + 1)).closeCall outer
      = s.world ⟨values.toArray, outer⟩ depth := by
  rw [World.closeCall, Shared.stack_world, Stack.closeWindow_mk h]
  rfl

theorem closeCall_program_onto (s : Shared ν) (window : List Value) (name : String)
    (caller : Suspended ν) (rest : Waiting ν b .host) (status : Status) :
    Bytecode.Progress.more (Bytecode.Config.closeCall
        (s.hostWorld o window (.program name caller rest))
        ⟨name, (rest.values o.values).length, .program caller.resume⟩ (rest.calls o) status)
      = (Config.done s status window (.program name caller rest)).onto o := by
  have hclosed : (s.hostWorld o window (.program name caller rest)).closeCall
        (rest.values o.values).length
      = s.hostWorld o (caller.window ++ window) rest := by
    have hle : (rest.values o.values).length
        ≤ (rest.values o.values ++ (caller.window ++ window)).length := by simp
    rw [Shared.hostWorld, Waiting.values, List.append_assoc]
    exact closeCall_world s hle _ _
  simp only [Bytecode.Config.closeCall, hclosed, Config.done]
  cases status.isOk <;> rfl

theorem closeCall_bytecode_onto (s : Shared ν) (window : List Value) (name : String) (run : Run)
    (rest : Waiting ν b .code) (status : Status) :
    Bytecode.Progress.more (Bytecode.Config.closeCall
        (s.hostWorld o window (.bytecode name run rest))
        ⟨name, rest.base o, .code (run.above o rest)
          ((rest.values o.values).length + run.values.length)⟩ (rest.calls o) status)
      = (Config.done s status window (.bytecode name run rest)).onto o := by
  have hclosed : (s.hostWorld o window (.bytecode name run rest)).closeCall (rest.base o)
      = s.world ⟨(rest.values o.values ++ (run.values ++ window)).toArray, rest.base o⟩
          (rest.depth o.depth + run.depth) := by
    have hle : rest.base o ≤ (rest.values o.values ++ (run.values ++ window)).length := by
      rw [List.length_append]
      exact Nat.le_add_right_of_le (rest.base_le o)
    rw [Shared.hostWorld, Waiting.values, List.append_assoc]
    exact closeCall_world s hle _ _
  have hcount : (rest.values o.values ++ (run.values ++ window)).length
      - ((rest.values o.values).length + run.values.length) = window.length := by
    simp only [List.length_append]
    omega
  simp only [Bytecode.Config.closeCall, hclosed, Config.done, Run.accept, Shared.stack_world,
    Stack.size_mk, hcount]
  cases status.isOk with
  | false => exact trap_onto o s run rest (run.values ++ window) _ _
  | true =>
    -- Bytecode takes exactly one value; a window with none or with several is a trap.
    rcases window with _ | ⟨value, _ | ⟨value', window⟩⟩
    · exact trap_onto o s run rest (run.values ++ []) _ _
    · have hpushed : run.values ++ [value] = Run.values { run with
          frame := { run.frame with operands := value :: run.frame.operands } } := by
        simp [Run.values, Frame.values]
      rw [hpushed]
      exact congrArg _ (@goto_onto _ _ o s run rest
        { run.frame with operands := value :: run.frame.operands } s.globals _ rfl rfl)
    · exact trap_onto o s run rest (run.values ++ value :: value' :: window) _ _

theorem done_onto (s : Shared ν) (window : List Value) (waiting : Waiting ν b .host)
    (status : Status) :
    Bytecode.Config.hostStep (s.hostWorld o window waiting) (waiting.calls o) (.done status)
      = (Config.done s status window waiting).onto o := by
  cases waiting with
  | outside => rfl
  | program name caller rest => exact closeCall_program_onto o s window name caller rest status
  | bytecode name run rest => exact closeCall_bytecode_onto o s window name run rest status

/-- A call of a bytecode function turns the arguments on top of the stack into a frame. -/
theorem callCode_onto (s : Shared ν) (arguments : List Value) (waiting : Waiting ν b .code)
    (name : String) {chunk : Chunk} {index : Nat}
    (h : chunk.functionArity index = arguments.length) :
    Bytecode.Progress.more (Bytecode.Config.callCode
        (s.world ⟨(waiting.values o.values ++ arguments).toArray, waiting.base o⟩
          (waiting.depth o.depth))
        (waiting.calls o) name chunk index arguments.length (waiting.resume o))
      = (Config.enter o.toGround (s.log (.codeCalled name arguments.length)) chunk index arguments
          waiting).onto o := by
  generalize hlog : LogEntry.codeCalled name arguments.length = entry
  have hbase : (waiting.values o.values ++ arguments).length - chunk.functionArity index
      = (waiting.values o.values).length := by
    rw [h, List.length_append, Nat.add_sub_cancel]
  have henter := enterFrame_placed (s.log entry) (waiting.values o.values) arguments
    (waiting.base o) (waiting.depth o.depth) chunk index
  have hlogged : (s.world ⟨(waiting.values o.values ++ arguments).toArray, waiting.base o⟩
        (waiting.depth o.depth)).log entry
      = (s.log entry).world ⟨(waiting.values o.values ++ arguments).toArray, waiting.base o⟩
          (waiting.depth o.depth) := rfl
  simp only [Bytecode.Config.callCode, hlog, hlogged, Shared.stack_world, Stack.size_mk, hbase,
    henter, Config.enter]
  cases Frame.enter (s.log entry).limits chunk index (waiting.values o.values).length
      (waiting.depth o.depth) arguments with
  | ok f => rfl
  | error kind =>
    simp only [finish_error_onto]
    rw [← Stack.truncate_append arguments (waiting.base_le o)]
    rfl

/-- The arguments of a host function stand on top of the caller's window and become one of their
own. -/
theorem openCall_program_onto (s : Shared ν) (kept passed : List Value)
    (waiting : Waiting ν b .host) (name : String) (function : HostFunction ν)
    (next : Reply → HostProgram ν) :
    Bytecode.Config.openCall (s.hostWorld o (kept ++ passed) waiting) (waiting.calls o) name
        function passed.length (.program next)
      = Config.onto o ⟨s, .host passed function.body (.program name ⟨kept, next⟩ waiting)⟩ := by
  have hle : (waiting.values o.values).length ≤ (waiting.values o.values ++ kept).length := by simp
  simp only [Shared.hostWorld]
  rw [← List.append_assoc, openCall_world s passed hle]
  rfl

theorem call_onto (s : Shared ν) (window : List Value) (waiting : Waiting ν b .host)
    (name : String) (arguments : Nat) (next : Reply → HostProgram ν) :
    Bytecode.Progress.more (Bytecode.Config.call (s.hostWorld o window waiting) (waiting.calls o)
        name arguments next)
      = (Config.call o.toGround s window waiting name arguments next).onto o := by
  have hdispatch : (s.hostWorld o window waiting).machine.dispatch name arguments
      = (s.seen window).machine.dispatch name arguments := dispatch_windowed ..
  rw [Bytecode.Config.call, Config.call, hdispatch]
  cases hcallee : (s.seen window).machine.dispatch name arguments with
  | error failure => rfl
  | ok callee =>
    obtain ⟨hheight, harity⟩ := dispatch_ok hcallee
    rw [Shared.seen_eq, Shared.stack_world, Stack.height_windowed] at hheight
    obtain ⟨kept, passed, rfl, rfl⟩ := Stack.exists_append_of_le_length hheight
    simp only [List.length_append, Nat.add_sub_cancel, List.take_left, List.drop_left]
    cases callee with
    | host function =>
      change Bytecode.Progress.more
          (if s.limits.callDepth ≤ waiting.depth o.depth then _ else Bytecode.Config.openCall
            ((s.log (.hostCalled name passed.length)).hostWorld o (kept ++ passed) waiting)
            (waiting.calls o) name function passed.length (.program next))
        = Progress.onto o (if s.limits.callDepth ≤ waiting.depth o.depth then _ else _)
      by_cases hdepth : s.limits.callDepth ≤ waiting.depth o.depth
      · rw [if_pos hdepth, if_pos hdepth]
        rfl
      · rw [if_neg hdepth, if_neg hdepth, openCall_program_onto]
        rfl
    | code chunk index =>
      rw [← callCode_onto o s passed (.entry ⟨kept, next⟩ waiting) name harity.2.2, Waiting.values,
        List.append_assoc]
      rfl

theorem hostStep_onto (s : Shared ν) (window : List Value) (waiting : Waiting ν b .host)
    (program : HostProgram ν) :
    Bytecode.Config.hostStep (s.hostWorld o window waiting) (waiting.calls o) program
      = (Config.hostStep o.toGround s window waiting program).onto o := by
  cases program with
  | done status => exact done_onto o s window waiting status
  | ask query next =>
    have hanswer : query.answer (s.hostWorld o window waiting) = query.answer (s.seen window) :=
      answer_windowed ..
    rw [Bytecode.Config.hostStep, hanswer]
    rfl
  | act command next =>
    exact congrArg _ (operate_onto o waiting next (localAt_perform command))
  | register name arity body next =>
    exact congrArg _ (operate_onto o waiting next (localAt_register name ⟨arity, body⟩))
  | call name arguments next => exact call_onto o s window waiting name arguments next
  | note note next => rfl

/-- One step on the single stack is one step of the separate frames, placed on the stack. -/
theorem step_onto (c : Config ν b) : (c.onto o).step = (c.step o.toGround).onto o := by
  obtain ⟨s, window | run⟩ := c
  · exact hostStep_onto ..
  · exact codeStep_onto ..

end Bytecode.Separate
