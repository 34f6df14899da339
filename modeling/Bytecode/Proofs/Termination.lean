import Bytecode.Proofs.LoadGate
import Bytecode.Proofs.StepCases

/-!
# Every call returns

Functions of a chunk may call themselves and each other, and host functions that call back into the
chunk, without end. What ends this is the limit on the call depth, if nobody raises it meanwhile and
no function goes in circles by itself: a run is *tame* if host functions leave the limits as they
are and all chunks that are loaded jump forward only (`Config.Tame`). What a host function does
between its calls is finite, because a host program is a tree without infinite branches.

Neither the depth nor the position in the code goes down along a run, and a call may make two calls
at the next level, each of which makes two again. So there are three inductions, one in the other:

* on the room that is left under the limit, since whatever is called has less of it;
* on the instructions that are left in a frame, since jumps go forward (`framesEnd_succ`);
* on the tree of a host program (`programFinishes_of_calls`).

What carries them is that a call comes back at the depth at which it was made. So after a call there
is as much room for the next one as there was before.
-/

namespace Bytecode

variable {ν : Type}

/-! ## Forward jumps -/

namespace Chunk

/-- Every jump goes to a later instruction. -/
def ForwardJumps (chunk : Chunk) : Prop :=
  ∀ f ∈ chunk.functions, ∀ pc : Fin f.code.size,
    f.code[pc].opcode = .jump ∨ f.code[pc].opcode = .jumpIfFalse → pc < f.code[pc].arg1.toNat
  deriving Decidable

/-- The number of instructions of a function of the table; zero if there is no such function. -/
def codeSize (chunk : Chunk) (function : Nat) : Nat :=
  match chunk.functions[function]? with
  | some f => f.code.size
  | none => 0

variable {chunk : Chunk} {function pc : Nat} {i : Instruction}

theorem exists_of_instruction? (h : chunk.instruction? function pc = some i) :
    ∃ f, chunk.functions[function]? = some f ∧ f.code[pc]? = some i := by
  rw [instruction?] at h
  split at h
  · rename_i f hf
    exact ⟨f, hf, h⟩
  · cases h

theorem lt_codeSize (h : chunk.instruction? function pc = some i) :
    pc < chunk.codeSize function := by
  obtain ⟨f, hf, hcode⟩ := exists_of_instruction? h
  rw [codeSize, hf]
  exact (Array.getElem?_eq_some_iff.mp hcode).1

theorem ForwardJumps.lt_target (h : chunk.ForwardJumps)
    (hi : chunk.instruction? function pc = some i)
    (hop : i.opcode = .jump ∨ i.opcode = .jumpIfFalse) : pc < i.arg1.toNat := by
  obtain ⟨f, hf, hcode⟩ := exists_of_instruction? hi
  obtain ⟨hpc, rfl⟩ := Array.getElem?_eq_some_iff.mp hcode
  exact h f (Array.mem_of_getElem? hf) ⟨pc, hpc⟩ hop

end Chunk

/-! ## Tame runs -/

/-- In all that is still to come, host functions leave the limits as they are, and every chunk that
is loaded jumps forward only. -/
structure Config.Tame (c : Config ν) : Prop where
  limits : ∀ d e, c.Reaches d → d.calls ≠ [] → d.step = .more e →
    e.world.machine.limits = d.world.machine.limits
  forward : ∀ d chunk, c.Reaches d → d.world.machine.chunk = some chunk → chunk.ForwardJumps

theorem Config.Tame.of_reaches {c d : Config ν} (h : c.Tame) (hreach : c.Reaches d) : d.Tame where
  limits e e' he := h.limits e e' (hreach.trans he)
  forward e chunk he := h.forward e chunk (hreach.trans he)

/-- These limits are set, and this many calls are live. -/
structure World.At (limits : Limits) (depth : Nat) (w : World ν) : Prop where
  limits_eq : w.machine.limits = limits
  depth_eq : w.machine.depth = depth

theorem World.At.of_keeps {limits : Limits} {depth depth' : Nat} {w w' : World ν}
    (hat : w.At limits depth) (h : w.machine.Keeps depth' w'.machine) : w'.At limits depth' :=
  ⟨h.limits.trans hat.limits_eq, h.depth⟩

namespace Config

/-! ## Host programs -/

/-- A host program comes to its end, in a world of which `I` holds. -/
def ProgramFinishes (I : World ν → Prop) (w : World ν) (program : HostProgram ν)
    (calls : List (HostCall ν)) : Prop :=
  ∃ status w', Reaches ⟨w, .host program, calls⟩ ⟨w', .host (.done status), calls⟩ ∧ I w'

/-- A call comes back to the host code that made it, in a world of which `I` holds. -/
def CallFinishes (I : World ν → Prop) (w : World ν) (name : String) (arguments : Nat)
    (next : Reply → HostProgram ν) (calls : List (HostCall ν)) : Prop :=
  ∃ reply w', Reaches ⟨w, .host (.call name arguments next), calls⟩
    ⟨w', .host (next reply), calls⟩ ∧ I w'

/-- A host program comes to its end if its calls do. -/
theorem programFinishes_of_calls {I : World ν → Prop} {calls : List (HostCall ν)}
    (hcalls : ∀ w name arguments next, I w → Tame ⟨w, .host (.call name arguments next), calls⟩ →
      CallFinishes I w name arguments next calls)
    (hkept : ∀ w w', I w → w'.machine.depth = w.machine.depth →
      (calls ≠ [] → w'.machine.limits = w.machine.limits) → I w')
    (program : HostProgram ν) {w : World ν} (hw : I w) (htame : Tame ⟨w, .host program, calls⟩) :
    ProgramFinishes I w program calls := by
  -- All operations but calls take one step, which leaves the depth alone.
  have hnext : ∀ {w w' : World ν} {program program' : HostProgram ν}, I w →
      Tame ⟨w, .host program, calls⟩ →
      Config.step ⟨w, .host program, calls⟩ = .more ⟨w', .host program', calls⟩ →
      w'.machine.depth = w.machine.depth →
      (I w' → Tame ⟨w', .host program', calls⟩ → ProgramFinishes I w' program' calls) →
      ProgramFinishes I w program calls := by
    intro w w' program program' hw htame hstep hdepth hrest
    have hw' : I w' := hkept w w' hw hdepth fun hne ↦ htame.limits _ _ (.refl _) hne hstep
    obtain ⟨status, w'', hreach, hw''⟩ := hrest hw' (htame.of_reaches (.step hstep))
    exact ⟨status, w'', Reaches.trans (.step hstep) hreach, hw''⟩
  induction program generalizing w with
  | done status => exact ⟨status, w, .refl _, hw⟩
  | ask query next ih => exact hnext hw htame rfl rfl (ih _)
  | act command next ih => exact hnext hw htame rfl (command.depth_perform w) (ih _)
  | register name arity body next _ ih =>
    exact hnext hw htame rfl (w.depth_register name ⟨arity, body⟩) (ih _)
  | note note next ih => exact hnext hw htame rfl rfl ih
  | call name arguments next ih =>
    obtain ⟨reply, w', hreach, hw'⟩ := hcalls w name arguments next hw htame
    obtain ⟨status, w'', hreach', hw''⟩ := ih reply hw' (htame.of_reaches hreach)
    exact ⟨status, w'', hreach.trans hreach', hw''⟩

/-! ## Calls and frames -/

/-- The executing frame of a run comes to its end: the run is over, or control is back with the
frame that waits for this one. -/
inductive FrameEnds (limits : Limits) (depth : Nat) (c : Config ν) (run : CodeRun ν)
    (calls : List (HostCall ν)) : Prop where
  | ends (reply : Reply) (w : World ν) (hreach : c.Reaches ⟨w, .host (run.resume reply), calls⟩)
    (hat : w.At limits run.depthBefore)
  | leaves (frame : Frame) (outer : List Frame) (w : World ν) (houter : run.outer = frame :: outer)
    (hreach : c.Reaches ⟨w, .code { run with frame, outer }, calls⟩) (hat : w.At limits (depth - 1))

/-- A frame ends as it does from an instruction that it comes to. -/
theorem FrameEnds.of_goto {limits : Limits} {depth pc : Nat} {c d : Config ν} {run : CodeRun ν}
    {calls : List (HostCall ν)} (hreach : c.Reaches d)
    (h : FrameEnds limits depth d (run.goto pc) calls) : FrameEnds limits depth c run calls := by
  cases h with
  | ends reply w hreach' hat => exact .ends reply w (hreach.trans hreach') hat
  | leaves frame outer w houter hreach' hat =>
    exact .leaves frame outer w houter (hreach.trans hreach') hat

/-- Calls by host code come back where fewer than `room` more calls can be nested. -/
def CallsReturn (ν : Type) (room : Nat) : Prop :=
  ∀ (limits : Limits) (depth : Nat) (w : World ν) (name : String) (arguments : Nat)
    (next : Reply → HostProgram ν) (calls : List (HostCall ν)),
    limits.callDepth - depth < room → w.At limits depth →
    Tame ⟨w, .host (.call name arguments next), calls⟩ →
    CallFinishes (World.At limits depth) w name arguments next calls

/-- Frames come to their end where fewer than `room` more calls can be nested. -/
def FramesEnd (ν : Type) (room : Nat) : Prop :=
  ∀ (limits : Limits) (depth : Nat) (w : World ν) (run : CodeRun ν) (calls : List (HostCall ν)),
    limits.callDepth - depth < room → w.At limits depth → run.chunk.ForwardJumps →
    Tame ⟨w, .code run, calls⟩ → FrameEnds limits depth ⟨w, .code run, calls⟩ run calls

/-- A host function comes to its end once its calls have come back. -/
theorem CallsReturn.closes {room : Nat} (h : CallsReturn ν room) {limits : Limits} {depth : Nat}
    (hroom : limits.callDepth - depth < room) {w : World ν} (hat : w.At limits depth)
    {program : HostProgram ν} {call : HostCall ν} {calls : List (HostCall ν)}
    (htame : Tame ⟨w, .host program, call :: calls⟩) :
    ∃ w' d, Reaches ⟨w, .host program, call :: calls⟩ d ∧ w'.At limits depth ∧
      AfterClose w' calls call.caller d := by
  obtain ⟨status, w', hreach, hat'⟩ := programFinishes_of_calls
    (fun w name arguments next hat ↦ h limits depth w name arguments next _ hroom hat)
    (fun w w' hat hdepth hlimits ↦
      ⟨(hlimits (List.cons_ne_nil _ _)).trans hat.limits_eq, hdepth.trans hat.depth_eq⟩)
    program hat htame
  exact ⟨w', _, hreach.trans (.step rfl), hat', afterClose_closeCall w' call calls status⟩

theorem callsReturn_succ {room : Nat} (hcalls : CallsReturn ν room) (hframes : FramesEnd ν room) :
    CallsReturn ν (room + 1) := by
  intro limits depth w name arguments next calls hroom hat htame
  obtain ⟨rfl, rfl⟩ := hat
  obtain ⟨d, hstep, hcall⟩ : ∃ d, Reaches ⟨w, .host (.call name arguments next), calls⟩ d ∧
      AfterCall w calls next d := ⟨_, .step rfl, afterCall_call w calls name arguments next⟩
  have htame' := htame.of_reaches hstep
  cases hcall with
  | fails reply w' h => exact ⟨reply, w', hstep, h.limits, h.depth⟩
  | opens name key outerBase function w' hfunction hdepth h =>
    obtain ⟨w₁, e, hreach, hat, hclose⟩ := hcalls.closes (by omega) ⟨h.limits, h.depth⟩ htame'
    cases hclose with
    | resumes _ reply w₂ hkeeps =>
      have hat₂ := hat.of_keeps hkeeps
      rw [hat.depth_eq, Nat.add_sub_cancel] at hat₂
      exact ⟨reply, w₂, hstep.trans hreach, hat₂⟩
  | enters chunk frame argumentsBase w' hchunk hdepth h =>
    have hforward := htame.forward _ chunk (.refl _) hchunk
    have hends := hframes _ _ _ _ calls (by omega) ⟨h.limits, h.depth⟩ hforward htame'
    cases hends with
    | ends reply w₁ hreach hat => exact ⟨reply, w₁, hstep.trans hreach, hat⟩
    | leaves _ _ _ houter => cases houter

/-- One instruction: a frame comes to its end if it does so from every later instruction. -/
theorem frameEnds_of_later {room : Nat} (hcalls : CallsReturn ν room) (hframes : FramesEnd ν room)
    {w : World ν} {run : CodeRun ν} {calls : List (HostCall ν)}
    (hroom : w.machine.limits.callDepth - w.machine.depth < room + 1)
    (hforward : run.chunk.ForwardJumps) (htame : Tame ⟨w, .code run, calls⟩)
    (hlater : ∀ i pc w', run.chunk.instruction? run.frame.function run.frame.pc = some i →
      run.frame.pc < pc → w'.At w.machine.limits w.machine.depth →
      Tame ⟨w', .code (run.goto pc), calls⟩ → FrameEnds w.machine.limits w.machine.depth
        ⟨w', .code (run.goto pc), calls⟩ (run.goto pc) calls) :
    FrameEnds w.machine.limits w.machine.depth ⟨w, .code run, calls⟩ run calls := by
  obtain ⟨d, hstep, hcode⟩ : ∃ d, Reaches ⟨w, .code run, calls⟩ d ∧
      AfterInstruction w run calls d := ⟨_, .step rfl, afterInstruction_codeStep w run calls⟩
  have htame' := htame.of_reaches hstep
  cases hcode with
  | ends reply w' h => exact .ends reply w' hstep ⟨h.limits, h.depth⟩
  | leaves frame outer w' houter h => exact .leaves frame outer w' houter hstep ⟨h.limits, h.depth⟩
  | goes i pc w' hi hpc h =>
    have hlt : run.frame.pc < pc := by
      rcases hpc with rfl | ⟨hop, rfl⟩
      · exact Nat.lt_succ_self _
      · exact hforward.lt_target hi hop
    exact .of_goto hstep (hlater i pc w' hi hlt ⟨h.limits, h.depth⟩ htame')
  | enters i frame w' hi hdepth h =>
    have hends := hframes _ _ w' (run.enter frame) calls (by omega) ⟨h.limits, h.depth⟩ hforward
      htame'
    cases hends with
    | ends reply w₁ hreach hat => exact .ends reply w₁ (hstep.trans hreach) hat
    | leaves _ _ w₁ houter hreach hat =>
      -- The callee is done, and this frame goes on after its call instruction.
      cases houter
      rw [Nat.add_sub_cancel] at hat
      have hreach' := hstep.trans hreach
      exact .of_goto hreach'
        (hlater i _ w₁ hi (Nat.lt_succ_self _) hat (htame.of_reaches hreach'))
  | opens i name key outerBase window function w' hi hfunction hdepth h =>
    obtain ⟨w₁, e, hreach, hat, hclose⟩ := hcalls.closes (by omega) ⟨h.limits, h.depth⟩ htame'
    have hreach' := hstep.trans hreach
    cases hclose with
    | ends _ _ reply w₂ hkeeps => exact .ends reply w₂ hreach' (hat.of_keeps hkeeps)
    | goes _ _ w₂ hkeeps =>
      have hat₂ := hat.of_keeps hkeeps
      rw [hat.depth_eq, Nat.add_sub_cancel] at hat₂
      exact .of_goto hreach'
        (hlater i _ w₂ hi (Nat.lt_succ_self _) hat₂ (htame.of_reaches hreach'))

theorem framesEnd_succ {room : Nat} (hcalls : CallsReturn ν room) (hframes : FramesEnd ν room) :
    FramesEnd ν (room + 1) := by
  intro limits depth w run calls hroom hat hforward htame
  induction hleft : run.chunk.codeSize run.frame.function - run.frame.pc using Nat.strongRecOn
    generalizing w run with
  | ind left ih =>
    obtain ⟨rfl, rfl⟩ := hat
    refine frameEnds_of_later hcalls hframes hroom hforward htame ?_
    intro i pc w' hi hpc hat htame'
    have hlt := Chunk.lt_codeSize hi
    refine ih _ ?_ w' (run.goto pc) hat hforward htame' rfl
    change run.chunk.codeSize run.frame.function - pc < left
    omega

theorem callsReturn_and_framesEnd (ν : Type) (room : Nat) :
    CallsReturn ν room ∧ FramesEnd ν room := by
  induction room with
  | zero =>
    constructor
    · intro limits depth w name arguments next calls hroom
      exact absurd hroom (Nat.not_lt_zero _)
    · intro limits depth w run calls hroom
      exact absurd hroom (Nat.not_lt_zero _)
  | succ room ih => exact ⟨callsReturn_succ ih.1 ih.2, framesEnd_succ ih.1 ih.2⟩

/-! ## Whole programs -/

/-- A program of embedding code halts. It may change the limits between its calls. -/
theorem Tame.exists_halted {w : World ν} {program : HostProgram ν}
    (h : (Config.start w program).Tame) :
    ∃ d status w', (Config.start w program).Reaches d ∧ d.step = .halted status w' := by
  have hcalls : ∀ (w : World ν) name arguments next, True →
      Tame ⟨w, .host (.call name arguments next), []⟩ →
      CallFinishes (fun _ ↦ True) w name arguments next [] := by
    intro w name arguments next _ htame
    obtain ⟨hcalls, -⟩ :=
      callsReturn_and_framesEnd ν (w.machine.limits.callDepth - w.machine.depth + 1)
    obtain ⟨reply, w', hreach, -⟩ :=
      hcalls _ _ w name arguments next [] (Nat.lt_succ_self _) ⟨rfl, rfl⟩ htame
    exact ⟨reply, w', hreach, trivial⟩
  obtain ⟨status, w', hreach, -⟩ :=
    programFinishes_of_calls hcalls (fun _ _ _ _ _ ↦ trivial) program trivial h
  exact ⟨_, status, w', hreach, rfl⟩

end Config

/-- Runaway recursion ends. Let embedding code run a program on a machine that it can bring about,
such that host functions leave the limits as they are and every chunk that is loaded jumps forward
only. Then every call that is made on the way returns, whether the program makes it or a host
function, however functions and host functions call themselves and each other, and whatever the
limit on the call depth is. So the program itself is done after finitely many steps. -/
theorem runaway_recursion_ends {w : World ν} {program : HostProgram ν}
    (hreach : (Config.start w program).Reachable) (htame : (Config.start w program).Tame) :
    (∀ w' name arguments next calls,
      (Config.start w program).Reaches ⟨w', .host (.call name arguments next), calls⟩ →
      ∃ reply w'', w'.CallReturns name arguments reply w'') ∧
    ∃ steps status w', (Config.start w program).run steps = some (status, w') := by
  obtain ⟨d, status, w₁, hd, hhalted⟩ := htame.exists_halted
  constructor
  · intro w' name arguments next calls hcall
    have hreachable : Config.Reachable ⟨w', .host (.call name arguments next), calls⟩ :=
      hcall.induction hreach fun _ _ h hstep ↦ h.step hstep
    exact Separate.exists_callReturns_of_halts (Separate.base_le_of_reachable hreachable)
      (hcall.of_halted hd hhalted) hhalted
  · obtain ⟨n, hn⟩ := hd
    refine ⟨n + 1, status, w₁, Config.run_eq_some_iff.mpr ?_⟩
    rw [Progress.after_add, hn, Progress.after_more_succ, hhalted, Progress.after_zero]

/-! ## A function and a host function that call each other -/

/-- How host code goes on when the caller is done. -/
def Caller.resume : Caller ν → Reply → HostProgram ν
  | .program resume => resume
  | .code run _ => run.resume

namespace Branching

/-- Host code that answers null. -/
def answer : HostProgram Empty :=
  .act (.push .null) fun _ ↦ .done .ok

/-- Host code that calls `branch` and answers null, whatever came of the call. -/
def calling : HostProgram Empty :=
  .call "branch" 0 fun _ ↦ answer

def hosts : HostRegistry Empty :=
  HostRegistry.register {} "again" ⟨0, calling⟩

/-- A function that calls the host function `again` and then itself. -/
def function : FunctionDef :=
  ⟨"branch", 0, 0, #[{ opcode := .callHost }, { opcode := .pop }, { opcode := .jump, arg1 := 3 },
    { opcode := .call }, { opcode := .ret }]⟩

def chunk : Chunk :=
  ⟨#[.str (Text.Utf8.encode "again")], #[function]⟩

theorem verified : chunk.Verified :=
  Verify.verified_of_single (by decide) (by decide) (by decide) (by decide) (by decide)

theorem loadable : Loadable chunk.encode chunk :=
  .of_toOption (List.cons_ne_nil _ _) (by decide +kernel) verified

/-- The machine with `again` registered and `chunk` loaded. -/
def world : World Empty :=
  ⟨{ chunk := some chunk, hosts }, {},
    #[.logged (.registered "again" 0 false), .logged (.loaded 1 1 false)]⟩

theorem reachable : Config.Reachable (.start world calling) := by
  let loading : HostProgram Empty := .act (.load chunk.encode) fun _ ↦ calling
  have hstart : Config.Reachable
      (.start ⟨{}, {}, #[]⟩ (.register "again" 0 calling fun _ ↦ loading)) := .fresh {} {} #[] _
  have hregistered : Config.Reachable
      ⟨⟨{ hosts }, {}, #[.logged (.registered "again" 0 false)]⟩, .host loading, []⟩ := by
    refine hstart.step ?_
    simp [Config.start, Config.step, Config.hostStep, World.register, World.log,
      HostRegistry.contains, loading, hosts]
  exact hregistered.step (step_load loadable _ _ _)

/-- All that is in play: the one chunk, the one host function, and what follows a call. -/
structure Scene (c : Config Empty) : Prop where
  machine : ∃ depth, world.machine.Keeps depth c.world.machine
  control : match c.control with
    | .host program => program = calling ∨ program = answer ∨ program = .done .ok
    | .code run => run.resume = fun _ ↦ answer
  calls : ∀ call ∈ c.calls, call.caller.resume = fun _ ↦ answer

theorem body_of_get? {key : String} {function : HostFunction Empty}
    (h : hosts.get? key = some function) : function.body = calling := by
  rw [hosts, HostRegistry.get?, HostRegistry.register, Std.HashMap.getElem?_insert] at h
  split at h
  · cases h
    rfl
  · simp at h

section Steps

variable {w : World Empty} {calls : List (HostCall Empty)} {d : Config Empty} {depth : Nat}
  (hmachine : world.machine.Keeps depth w.machine)
  (hcalls : ∀ call ∈ calls, call.caller.resume = fun _ ↦ answer)

include hmachine hcalls

theorem scene_of_afterInstruction {run : CodeRun Empty} (hresume : run.resume = fun _ ↦ answer)
    (h : Config.AfterInstruction w run calls d) : Scene d := by
  cases h with
  | ends reply w' hkeeps =>
    exact ⟨⟨_, hmachine.trans hkeeps⟩, .inr (.inl (congrFun hresume reply)), hcalls⟩
  | goes i pc w' hi hpc hkeeps => exact ⟨⟨_, hmachine.trans hkeeps⟩, hresume, hcalls⟩
  | enters i frame w' hi hdepth hkeeps => exact ⟨⟨_, hmachine.trans hkeeps⟩, hresume, hcalls⟩
  | leaves frame outer w' houter hkeeps => exact ⟨⟨_, hmachine.trans hkeeps⟩, hresume, hcalls⟩
  | opens i name key outerBase window function w' hi hfunction hdepth hkeeps =>
    rw [hmachine.hosts] at hfunction
    exact ⟨⟨_, hmachine.trans hkeeps⟩, .inl (body_of_get? hfunction),
      List.forall_mem_cons.mpr ⟨hresume, hcalls⟩⟩

theorem scene_of_afterCall {resume : Reply → HostProgram Empty}
    (hresume : resume = fun _ ↦ answer) (h : Config.AfterCall w calls resume d) : Scene d := by
  cases h with
  | fails reply w' hkeeps =>
    exact ⟨⟨_, hmachine.trans hkeeps⟩, .inr (.inl (congrFun hresume reply)), hcalls⟩
  | enters chunk frame argumentsBase w' hchunk hdepth hkeeps =>
    exact ⟨⟨_, hmachine.trans hkeeps⟩, hresume, hcalls⟩
  | opens name key outerBase function w' hfunction hdepth hkeeps =>
    rw [hmachine.hosts] at hfunction
    exact ⟨⟨_, hmachine.trans hkeeps⟩, .inl (body_of_get? hfunction),
      List.forall_mem_cons.mpr ⟨hresume, hcalls⟩⟩

theorem scene_of_afterClose {caller : Caller Empty} (hresume : caller.resume = fun _ ↦ answer)
    (h : Config.AfterClose w calls caller d) : Scene d := by
  cases h with
  | goes run window w' hkeeps => exact ⟨⟨_, hmachine.trans hkeeps⟩, hresume, hcalls⟩
  | resumes resume reply w' hkeeps =>
    exact ⟨⟨_, hmachine.trans hkeeps⟩, .inr (.inl (congrFun hresume reply)), hcalls⟩
  | ends run window reply w' hkeeps =>
    exact ⟨⟨_, hmachine.trans hkeeps⟩, .inr (.inl (congrFun hresume reply)), hcalls⟩

end Steps

theorem Scene.step {c d : Config Empty} (h : Scene c) (hstep : c.step = .more d) : Scene d := by
  obtain ⟨w, control, calls⟩ := c
  obtain ⟨⟨depth, hmachine⟩, hcontrol, hcalls⟩ := h
  cases control with
  | code run =>
    cases hstep
    exact scene_of_afterInstruction hmachine hcalls hcontrol
      (Config.afterInstruction_codeStep w run calls)
  | host program =>
    rcases hcontrol with rfl | rfl | rfl
    · cases hstep
      exact scene_of_afterCall hmachine hcalls rfl (Config.afterCall_call w calls "branch" 0 _)
    · cases hstep
      exact ⟨⟨_, hmachine.trans ⟨rfl, rfl, rfl, rfl⟩⟩, .inr (.inr rfl), hcalls⟩
    · cases calls with
      | nil => cases hstep
      | cons call calls =>
        cases hstep
        obtain ⟨hresume, hcalls⟩ := List.forall_mem_cons.mp hcalls
        exact scene_of_afterClose hmachine hcalls hresume
          (Config.afterClose_closeCall w call calls .ok)

theorem tame : (Config.start world calling).Tame := by
  have hscene : ∀ d, (Config.start world calling).Reaches d → Scene d := by
    intro d hreach
    refine hreach.induction ⟨⟨0, rfl, rfl, rfl, rfl⟩, .inl rfl, ?_⟩ fun _ _ ↦ Scene.step
    exact fun call hcall ↦ absurd hcall List.not_mem_nil
  constructor
  · intro d e hd _ hstep
    obtain ⟨_, hbefore⟩ := (hscene d hd).machine
    obtain ⟨_, hafter⟩ := ((hscene d hd).step hstep).machine
    rw [hafter.limits, hbefore.limits]
  · intro d loaded hd hloaded
    obtain ⟨_, hkeeps⟩ := (hscene d hd).machine
    rw [hkeeps.chunk] at hloaded
    cases hloaded
    decide

end Branching

theorem runaway_recursion_ends_branching :
    (Config.start Branching.world Branching.calling).Reachable ∧
      (Config.start Branching.world Branching.calling).Tame ∧
      ∃ reply w', Branching.world.CallReturns "branch" 0 reply w' := by
  refine ⟨Branching.reachable, Branching.tame, ?_⟩
  obtain ⟨hreturns, -⟩ := runaway_recursion_ends Branching.reachable Branching.tame
  exact hreturns Branching.world "branch" 0 _ [] (.refl _)

end Bytecode
