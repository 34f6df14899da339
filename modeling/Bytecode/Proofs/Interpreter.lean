import Bytecode.Proofs.Separate.Lasting

/-!
# The interpreter and the machine with separate frames

The interpreter keeps the frames of a run on one stack: arguments become locals in place, a frame is
a pair of slot numbers, and returning cuts the stack at one of them. The machine with separate
frames has no slots. Its frames own their locals, of which there are exactly as many as the function
declares, and their operands; a call moves operands into the locals of a new frame, and a return
moves one value back.

Both machines do the same. After every instruction, and after every operation of the host code that
runs in between, the stack is what lay below the arguments followed by the values of all live
frames, outermost first; the globals are the same, the same host functions have been entered with
the same arguments, and the end, if there is one, is the same.
-/

namespace Bytecode.Separate

variable {ν : Type} {b : Awaited}

/-! ## Sizes of frames -/

/-- The frame has as many locals as its function declares. -/
def Frame.Sized (chunk : Chunk) (f : Frame) : Prop :=
  ∃ function, chunk.functions[f.function]? = some function ∧
    f.locals.length = function.locals.toNat

def Run.Sized (run : Run) : Prop :=
  ∀ f ∈ run.frame :: run.outer, f.Sized run.chunk

theorem Frame.sized_enter {limits : Limits} {chunk : Chunk} {function under depth : Nat}
    {arguments : List Value} {f : Frame}
    (h : Frame.enter limits chunk function under depth arguments = .ok f) : f.Sized chunk := by
  rw [Frame.enter] at h
  split at h
  · cases h
  rename_i fn hfn
  split at h
  · cases h
  split at h
  · cases h
  · cases h
    exact ⟨fn, hfn, length_freshLocals _ _⟩

namespace Run

/-- A frame may change its operands and the values of its locals. -/
theorem Sized.frame {run : Run} (h : run.Sized) {f : Frame}
    (hfunction : f.function = run.frame.function)
    (hlocals : f.locals.length = run.frame.locals.length) : Sized { run with frame := f } := by
  intro f' hf'
  rcases List.mem_cons.mp hf' with rfl | houter
  · obtain ⟨function, hget, hlength⟩ := h run.frame List.mem_cons_self
    exact ⟨function, by rw [hfunction, hget], by rw [hlocals, hlength]⟩
  · exact h f' (List.mem_cons_of_mem _ houter)

end Run

/-- Every frame has as many locals as its function declares. -/
def sized : RunProperty :=
  ⟨fun _ ↦ True, Run.Sized, Run.Sized, fun _ ↦ True⟩

theorem sized_callTurn {run : Run} (s : Shared ν) (below depth callee : Nat) (h : run.Sized) :
    sized.OnTurn (run.callTurn s below depth callee) := by
  rw [Run.callTurn]
  split
  · trivial
  dsimp only
  split
  · trivial
  · rename_i frame henter
    intro f hf
    rcases List.mem_cons.mp hf with rfl | hf
    · exact Frame.sized_enter henter
    · have hcaller : Run.Sized ((run.dropOperands (run.chunk.functionArity callee)).goto
          (run.frame.pc + 1)) := h.frame rfl rfl
      exact hcaller f hf

theorem sized_hostTurn {run : Run} (s : Shared ν) (depth : Nat) (i : Instruction) (h : run.Sized) :
    sized.OnTurn (run.hostTurn s depth i) := by
  rw [Run.hostTurn]
  split
  · trivial
  dsimp only
  split
  · trivial
  split
  · trivial
  split
  · trivial
  split
  · trivial
  · exact h.frame rfl rfl

theorem sized_returnTurn {run : Run} (s : Shared ν) (h : run.Sized) :
    sized.OnTurn (run.returnTurn s) := by
  rw [Run.returnTurn]
  split
  · trivial
  split
  · trivial
  · rename_i frame outer houter
    have hrun : Run.Sized ⟨run.chunk, frame, outer⟩ := by
      intro f hf
      rw [← houter] at hf
      exact h f (List.mem_cons_of_mem _ hf)
    exact hrun.frame rfl rfl

theorem sized_kept : sized.Kept ν where
  loaded _ := trivial
  enter limits under depth arguments _ _ := by
    cases henter : Frame.enter limits _ _ under depth arguments with
    | ok f =>
      intro f' hf'
      rw [List.mem_singleton.mp hf']
      exact Frame.sized_enter henter
    | error kind => trivial
  turn {run} s below depth h := by
    rw [Run.turn]
    split
    · trivial
    rename_i i _
    have hstays := @exec_stays s.limits.stackDepth s.globals run.chunk
      (below + (stacked run.outer).length + run.frame.locals.length) i run.frame
    dsimp only
    split
    · trivial
    rename_i hexec
    rw [hexec] at hstays
    obtain ⟨hfunction, -, hlocals, -⟩ := hstays
    split
    · exact h.frame hfunction hlocals
    · exact h.frame hfunction hlocals
    · exact sized_callTurn s below depth _ h
    · exact sized_hostTurn s depth i h
    · exact sized_returnTurn s h
  accept {run} s name status results h := by
    unfold Run.accept
    split
    · trivial
    split
    · exact h.frame rfl rfl
    · trivial

theorem sized_codeMachine (s : Shared ν) (below : List Value) (depth : Nat) (name : String)
    (chunk : Chunk) (index : Nat) (passed : List Value) :
    sized.OnProgress (codeMachine s below depth name chunk index passed) := by
  rw [codeMachine, Config.enter]
  split
  · rename_i frame henter
    refine ⟨fun _ _ ↦ trivial, fun f hf ↦ ?_, trivial⟩
    rw [List.mem_singleton.mp hf]
    exact Frame.sized_enter henter
  · exact ⟨fun _ _ ↦ trivial, trivial⟩

/-! ## The values of a configuration -/

/-- All values of a configuration, outermost first: those of host code in its windows, those of
bytecode in its frames. -/
def Config.values : Config ν b → List Value
  | ⟨_, .host window _ waiting⟩ => waiting.values [] ++ window
  | ⟨_, .code run waiting⟩ => waiting.values [] ++ run.values

theorem Waiting.values_eq_append (ground : List Value) {a : Awaited} (waiting : Waiting ν b a) :
    waiting.values ground = ground ++ waiting.values [] := by
  induction waiting with
  | outside => simp [values]
  | program name caller rest ih => rw [values, values, ih, List.append_assoc]
  | bytecode name run rest ih => rw [values, values, ih, List.append_assoc]
  | entry caller rest ih => rw [values, values, ih, List.append_assoc]

theorem Config.values_onto (o : Outside ν) (c : Config ν b) :
    (c.onto o).world.machine.stack.values.toList = o.values ++ c.values := by
  obtain ⟨s, control⟩ := c
  cases control with
  | host window program waiting =>
    rw [values, ← List.append_assoc, ← waiting.values_eq_append]
    rfl
  | code run waiting =>
    rw [values, ← List.append_assoc, ← waiting.values_eq_append]
    rfl

/-! ## Refinement -/

/-- What the two machines agree on once the separate one has done what leads to `p`, where the other
one has made `m` of its own steps from `flat`. -/
def Agree (o : Outside ν) (flat : Bytecode.Progress ν) (m : Nat) : Progress ν .code → Prop
  | .more c =>
    ∃ d, flat.after m = .more d ∧
      d.world.machine.stack.values.toList = o.values ++ c.values ∧
      d.world.machine.globals = c.shared.globals
  | .ended s (.code outcome) =>
    flat.after m = .more ⟨s.afterCode o.values o.base o.depth outcome,
      .host (o.resume outcome.reply), o.calls⟩

/-- The interpreter refines the machine with separate frames: it returns just when that ends, with
the same outcome and the same globals, and until then both are in step. -/
theorem interpreter_refines_separate_frames (o : Outside ν) (s : Shared ν) (name : String)
    {chunk : Chunk} {entry : Nat} {arguments : List Value}
    (harity : chunk.functionArity entry = arguments.length) :
    let w := s.world ⟨(o.values ++ arguments).toArray, o.base⟩ o.depth
    let flat := Bytecode.Config.callCode w o.calls name chunk entry arguments.length o.resume
    let own := codeMachine s o.values o.depth name chunk entry arguments
    (∀ reply w', w.CodeReturns name chunk entry arguments.length reply w' ↔
      ∃ s' outcome, own.Ends o.toGround s' (.code outcome) ∧ reply = outcome.reply ∧
        w' = s'.afterCode o.values o.base o.depth outcome) ∧
      ∀ n, ∃ m ≤ n, Agree o (.more flat) m (own.after o.toGround n) ∧
        (Bytecode.Progress.more flat).entries m = own.entries o.toGround n ∧
        ∀ c, own.after o.toGround n = .more c → m = n ∧ sized.OnConfig c := by
  intro w flat own
  have hstart : Bytecode.Progress.more flat = own.onto o :=
    callCode_onto o s arguments .outside name harity
  refine ⟨fun reply w' ↦ codeReturns_iff o.base_le harity, fun n ↦ ?_⟩
  -- Once the separate machine has ended, the other one must not be run on into its caller.
  refine ⟨own.steps o.toGround n, own.steps_le _ n, ?_, ?_, fun c hc ↦ ?_⟩
  · have hafter := after_onto o own n
    rw [← hstart] at hafter
    cases hown : own.after o.toGround n with
    | more c =>
      rw [hown] at hafter
      exact ⟨c.onto o, hafter, c.values_onto o, congrArg Shared.globals (c.ofWorld_onto o)⟩
    | ended s' result =>
      cases result with
      | code outcome =>
        rw [hown] at hafter
        exact hafter
  · rw [hstart]
    exact entries_onto o own n
  · have hsized : sized.OnProgress own := sized_codeMachine s o.values o.depth name chunk entry _
    have hafter := RunProperty.onProgress_after sized_kept o.toGround hsized n
    rw [hc] at hafter
    exact ⟨Progress.steps_of_more hc, hafter⟩

/-! ## A call inside a run -/

namespace PassedOn

/-- `main` passes its argument on to `same`, which duplicates it, drops one copy and returns the
other. -/
def chunk : Chunk where
  constants := #[]
  functions :=
    #[⟨"main", 1, 2, #[{ opcode := .loadLocal }, { opcode := .call, arg1 := 1, arg2 := 1 },
        { opcode := .ret }]⟩,
      ⟨"same", 1, 1, #[{ opcode := .loadLocal }, { opcode := .dup }, { opcode := .pop },
        { opcode := .ret }]⟩]

/-- A fresh machine. -/
def shared : Shared Empty :=
  .ofWorld ⟨{}, {}, #[]⟩

end PassedOn

theorem interpreter_refines_separate_frames_passed_on :
    PassedOn.chunk.functionArity 0 = [Value.bool true].length ∧
      (PassedOn.shared.world ⟨#[.null, .bool true], 0⟩ 0).CodeReturns "main" PassedOn.chunk 0 1
        (.ok ())
        ((PassedOn.shared.log (.codeCalled "main" 1)).world ⟨#[.null, .bool true], 0⟩ 0) := by
  let o : Outside Empty := ⟨⟨[.null], 0⟩, 0, Nat.zero_le _, fun _ ↦ .done .ok, []⟩
  have harity : PassedOn.chunk.functionArity 0 = [Value.bool true].length := rfl
  refine ⟨harity, ?_⟩
  obtain ⟨hreturns, -⟩ := interpreter_refines_separate_frames o PassedOn.shared "main" harity
  exact (hreturns _ _).mpr ⟨_, .ok (.bool true), ⟨7, rfl⟩, rfl, rfl⟩

end Bytecode.Separate
