import Bytecode.Proofs.LoadGate
import Bytecode.Proofs.Separate.Graft
import Bytecode.Proofs.Separate.Outermost

/-!
# Traps point at their instruction

A trap names a function and an instruction of it. This is the instruction that was executing in the
outermost run of the call, and the trap is of a kind that it can raise (`Instruction.CanRaise`).

Only a call whose first frame is refused has no instruction to blame. Then the trap points at the
first instruction of the function that was called.

A host function may have loaded another chunk before the trap occurs. A run keeps its chunk, so the
trap points into the one that was loaded when the call was made.
-/

namespace Bytecode

variable {ν : Type}

/-- A function is not entered because a limit has been reached. -/
def TrapKind.isRefusal : TrapKind → Bool
  | .callDepthExceeded _ | .stackOverflow _ => true
  | _ => false

/-- A trap points at instruction `i` of the function at `index`, and at no other function. -/
structure Chunk.Locates (chunk : Chunk) (trap : Trap) (index : Nat) (i : Instruction) : Prop where
  instruction : ∃ f, chunk.functions[index]? = some f ∧ f.name = trap.function ∧
    f.code[trap.pc]? = some i
  unique {index' : Nat} {f : FunctionDef} (hf : chunk.functions[index']? = some f)
    (hname : f.name = trap.function) : index' = index

/-- What is to be known of a trap that ends a call of the function at `called`. -/
def Chunk.Diagnoses (chunk : Chunk) (called : Nat) (trap : Trap) : Prop :=
  ∃ index i, chunk.Locates trap index i ∧
    (i.CanRaise chunk trap.kind ∨ index = called ∧ trap.pc = 0 ∧ trap.kind.isRefusal = true)

/-- In a verified chunk, a function is known by its name. -/
theorem Chunk.Verified.locates {chunk : Chunk} (hverified : chunk.Verified) {index pc : Nat}
    {f : FunctionDef} {i : Instruction} (hf : chunk.functions[index]? = some f)
    (hi : f.code[pc]? = some i) (kind : TrapKind) :
    chunk.Locates ⟨kind, chunk.functionName index, pc⟩ index i := by
  have hname : f.name = chunk.functionName index := by
    rw [functionName, hf]
  refine ⟨⟨f, hf, hname, hi⟩, fun {index' f'} hf' hname' ↦ ?_⟩
  obtain ⟨-, hindex⟩ := Verify.functionIndex?_of_verified hverified hf
  obtain ⟨-, hindex'⟩ := Verify.functionIndex?_of_verified hverified hf'
  rw [hname', ← hname, hindex] at hindex'
  exact (Option.some.inj hindex').symm

namespace Separate

/-! ## One turn of a run -/

/-- A trap is one of the executing instruction, and a host function that is called goes by the name
that the instruction refers to. -/
def Turn.Explained (run : Run) (i : Instruction) : Turn ν → Prop
  | .goes _ _ | .ends (.ok _) => True
  | .calls name _ _ run' => i.opcode = .callHost ∧ i.Names run.chunk name ∧
    run'.frame.function = run.frame.function ∧ run'.frame.pc = run.frame.pc
  | .ends (.error trap) => ∃ kind, Explains run.chunk i kind ∧
    trap = ⟨kind, run.chunk.functionName run.frame.function, run.frame.pc⟩

section Turn

variable {run : Run} {i : Instruction}

theorem explained_trap {kind : TrapKind} (h : Explains run.chunk i kind) :
    (run.trap kind : Turn ν).Explained run i :=
  ⟨kind, h, rfl⟩

/-- A function that exists is refused only because of a limit. -/
theorem enter_error {limits : Limits} {chunk : Chunk} {function under depth : Nat}
    {arguments : List Value} {kind : TrapKind}
    (h : Frame.enter limits chunk function under depth arguments = .error kind) :
    kind.isOperandFault = true ∨ kind.isRefusal = true := by
  rw [Frame.enter] at h
  split at h
  · cases h
    exact .inl rfl
  split at h
  · cases h
    exact .inr rfl
  split at h
  · cases h
    exact .inr rfl
  · cases h

theorem canRaise_of_isRefusal {chunk : Chunk} {kind : TrapKind} (hop : i.opcode = .call)
    (h : kind.isRefusal = true) : i.CanRaise chunk kind := by
  cases kind with
  | callDepthExceeded => exact .inl hop
  | stackOverflow => exact .inr hop
  | _ => cases h

theorem explained_callTurn (s : Shared ν) (below depth callee : Nat) (hop : i.opcode = .call) :
    (run.callTurn s below depth callee).Explained run i := by
  unfold Run.callTurn
  dsimp only
  split
  · exact explained_trap (.inl rfl)
  split
  · rename_i henter
    exact explained_trap ((enter_error henter).imp_right (canRaise_of_isRefusal hop))
  · trivial

theorem explained_hostTurn (s : Shared ν) (depth : Nat) (hop : i.opcode = .callHost) :
    (run.hostTurn s depth i).Explained run i := by
  unfold Run.hostTurn
  cases hbytes : run.chunk.stringConstant? i.arg1 with
  | none => exact explained_trap (.inl rfl)
  | some bytes =>
    have hname : i.Names run.chunk (Text.Utf8.decodeLossy bytes) := ⟨bytes, hbytes, rfl⟩
    dsimp only
    split
    · exact explained_trap (.inr ⟨hop, hname⟩)
    split
    · exact explained_trap (.inr ⟨hop, hname, rfl⟩)
    split
    · exact explained_trap (.inl rfl)
    split
    · exact explained_trap (.inr (.inr hop))
    · exact ⟨hop, hname, rfl, rfl⟩

theorem explained_returnTurn (s : Shared ν) : (run.returnTurn s).Explained run i := by
  unfold Run.returnTurn
  split
  · exact explained_trap (.inl rfl)
  split
  · trivial
  · trivial

theorem explained_turn (s : Shared ν) (below depth : Nat) {function : FunctionDef}
    (hlocated : run.Located function i) : (run.turn s below depth).Explained run i := by
  have hbehaves := @exec_behaves run.chunk function i run.frame s.limits.stackDepth
    (below + (stacked run.outer).length + run.frame.locals.length) s.globals hlocated.resolves
    hlocated.locals hlocated.fits.1
  rw [Run.turn, hlocated.instruction?_eq]
  dsimp only
  split
  · rename_i hexec
    exact explained_trap (accounts_exec.of_error hexec)
  rename_i flow frame globals hexec
  rw [hexec] at hbehaves
  cases flow with
  | next => trivial
  | jump target => trivial
  | call callee => exact explained_callTurn s below depth callee hbehaves.1
  | host => exact explained_hostTurn s depth hbehaves
  | ret => exact explained_returnTurn s

end Turn

/-! ## The outermost run -/

/-- The run executes this chunk, well placed, and a host function that it waits for goes by the name
that its instruction refers to. -/
def diagnosed (chunk : Chunk) (called : Nat) : OutermostProperty where
  executing run := run.chunk = chunk ∧ wellPlaced.executing run
  awaiting name run := run.chunk = chunk ∧ wellPlaced.awaiting run ∧
    ∃ function i, chunk.functions[run.frame.function]? = some function ∧
      function.code[run.frame.pc]? = some i ∧ i.opcode = .callHost ∧ i.Names chunk name
  ending outcome := ∀ trap, outcome = .error trap → chunk.Diagnoses called trap

variable {chunk : Chunk} {called : Nat}

theorem diagnosed_trap {run : Run} {f : FunctionDef} {i : Instruction} {kind : TrapKind}
    (hchunk : run.chunk = chunk) (hverified : chunk.Verified)
    (hf : chunk.functions[run.frame.function]? = some f) (hi : f.code[run.frame.pc]? = some i)
    (hkind : i.CanRaise chunk kind) : (diagnosed chunk called).OnTurn (run.trap kind : Turn ν) := by
  intro trap htrap
  cases htrap
  rw [hchunk]
  exact ⟨_, i, hverified.locates hf hi kind, .inl hkind⟩

theorem diagnosed_turn (s : Shared ν) (below depth : Nat) {run : Run}
    (h : (diagnosed chunk called).executing run) :
    (diagnosed chunk called).OnTurn (run.turn s below depth) := by
  obtain ⟨rfl, hplaced⟩ := h
  obtain ⟨f, i, hlocated⟩ := exists_located hplaced.1 hplaced.2.1
  have hexplained := explained_turn s below depth hlocated
  have hturn := wellPlaced_turn s below depth hplaced
  have hkeeps := keeps_turn s below depth run
  cases hgoes : run.turn s below depth with
  | goes run' globals =>
    rw [hgoes] at hturn hkeeps
    exact ⟨hkeeps, hturn⟩
  | calls name function arguments run' =>
    rw [hgoes] at hturn hkeeps hexplained
    obtain ⟨hop, hname, hfunction, hpc⟩ := hexplained
    refine ⟨hkeeps, hturn, f, i, ?_, ?_, hop, hname⟩
    · rw [hfunction]
      exact hlocated.found
    · rw [hpc]
      exact hlocated.instruction
  | ends outcome =>
    rw [hgoes] at hturn hexplained
    intro trap htrap
    cases htrap
    obtain ⟨kind, hkind, rfl⟩ := hexplained
    rcases hkind with hfault | hkind
    · -- The operands are there, as the run is well placed.
      rw [hturn _ rfl] at hfault
      cases hfault
    · exact ⟨_, i, hplaced.1.locates hlocated.found hlocated.instruction kind, .inl hkind⟩

theorem diagnosed_accept (s : Shared ν) (status : Status) (results : List Value) {run : Run}
    {name : String} (h : (diagnosed chunk called).awaiting name run) :
    (diagnosed chunk called).OnTurn (run.accept s name status results) := by
  obtain ⟨hchunk, hplaced, f, i, hf, hi, hop, hname⟩ := h
  have hverified : chunk.Verified := hchunk ▸ hplaced.1
  unfold Run.accept
  split
  · exact diagnosed_trap hchunk hverified hf hi ⟨hop, hname⟩
  split
  · exact ⟨hchunk, hplaced⟩
  · exact diagnosed_trap hchunk hverified hf hi ⟨hop, hname⟩

theorem diagnosed_kept : (diagnosed chunk called).Kept ν where
  turn s below depth h := diagnosed_turn s below depth h
  accept s status results h := diagnosed_accept s status results h

/-- Where the first frame is refused, the first instruction stands for the call. -/
theorem diagnosed_entry (hverified : chunk.Verified) (hcalled : called < chunk.functions.size)
    (limits : Limits) (under depth : Nat) (passed : List Value) :
    (diagnosed chunk called).OnEntry chunk called
      (Frame.enter limits chunk called under depth passed) := by
  have hf := Array.getElem?_eq_getElem hcalled
  have hat := enter_at hf limits under depth passed
  cases henter : Frame.enter limits chunk called under depth passed with
  | ok frame =>
    rw [henter] at hat
    exact ⟨rfl, hverified, hat, fun f hf ↦ absurd hf List.not_mem_nil⟩
  | error kind =>
    rw [henter] at hat
    intro trap htrap
    cases htrap
    obtain ⟨i, hi, -⟩ := (Verify.sound_of_verified hverified hf).fits .start
    rcases enter_error henter with hfault | hrefusal
    · rw [hat] at hfault
      cases hfault
    · exact ⟨called, i, hverified.locates hf hi kind, .inr ⟨rfl, rfl, hrefusal⟩⟩

end Separate

open Separate

/-- Traps are located and explained. If a call ends in a trap, in any state that embedding code can
bring about, it has called a function of the loaded chunk. The trap names one function of this chunk
and an instruction of it that can raise such a trap, or it points at the start of the function that
was called because that could not be entered. -/
theorem traps_point_at_their_instruction {w w' : World ν} {program : HostProgram ν}
    {calls : List (HostCall ν)} {name : String} {arguments : Nat} {trap : Trap}
    (hreach : Config.Reachable ⟨w, .host program, calls⟩)
    (hreturn : w.CallReturns name arguments (.error (.trapped trap)) w') :
    ∃ chunk called, w.machine.chunk = some chunk ∧
      w.machine.dispatch name arguments = .ok (.code chunk called) ∧ chunk.Verified ∧
      chunk.Diagnoses called trap := by
  cases hdispatch : w.machine.dispatch name arguments with
  | error failure =>
    obtain ⟨hfailure, -⟩ := callReturns_of_dispatch_error hdispatch hreturn
    cases hfailure
    exact absurd rfl ((dispatch_error hdispatch).1 trap)
  | ok callee =>
    obtain ⟨hheight, hcallee⟩ := dispatch_ok hdispatch
    obtain ⟨s, below, passed, base, depth, hbelow, rfl, rfl⟩ :=
      exists_arguments (base_le_of_reachable hreach) hheight
    cases callee with
    | code chunk called =>
      obtain ⟨hchunk, hcalled, -⟩ := hcallee
      have hverified : chunk.Verified := hreach.verified hchunk
      refine ⟨chunk, called, hchunk, rfl, hverified, ?_⟩
      obtain ⟨s', outcome, hends, hreply, -⟩ := (callReturns_code_iff hbelow hdispatch).mp hreturn
      have hending := OutermostProperty.ending_of_codeMachine diagnosed_kept
        (diagnosed_entry hverified hcalled s.limits below.length depth passed) hends
      cases outcome with
      | ok value => cases hreply
      | error trap' =>
        cases hreply
        exact hending trap rfl
    | host function =>
      -- A host function that fails is not reported as a trap.
      by_cases hdepth : s.limits.callDepth ≤ depth
      · obtain ⟨hreply, -⟩ := callReturns_of_depth_exceeded hdispatch hdepth hreturn
        cases hreply
      · obtain ⟨s', status, window, -, hreply, -⟩ :=
          (callReturns_host_iff hbelow hdispatch hdepth).mp hreturn
        rw [hostReply] at hreply
        split at hreply
        · cases hreply
        · cases hreply

/-! ## A chunk that is replaced while it executes -/

namespace Replacing

/-- A host function that loads another chunk and fails. -/
def replace : HostFunction Empty :=
  ⟨0, .act (.load Answering.chunk.encode) fun _ ↦ .done .runtimeError⟩

def hosts : HostRegistry Empty :=
  HostRegistry.register {} "replace" replace

/-- A function whose second instruction calls `replace`. -/
def function : FunctionDef :=
  ⟨"renew", 0, 0, #[{ opcode := .nop }, { opcode := .callHost }, { opcode := .ret }]⟩

def chunk : Chunk :=
  ⟨#[.str (Text.Utf8.encode "replace")], #[function]⟩

theorem verified : chunk.Verified :=
  Verify.verified_of_single (by decide) (by decide) (by decide) (by decide) (by decide)

theorem loadable : Loadable chunk.encode chunk :=
  .of_toOption nofun (by decide +kernel) verified

def world : World Empty :=
  ⟨{ chunk := some chunk, hosts }, {},
    #[.logged (.registered "replace" 0 false), .logged (.loaded 1 1 false)]⟩

theorem reachable : Config.Reachable ⟨world, .host (.done .ok), []⟩ := by
  let program : HostProgram Empty :=
    .register "replace" 0 replace.body fun _ ↦ .act (.load chunk.encode) fun _ ↦ .done .ok
  have hstart : Config.Reachable (.start ⟨{}, {}, #[]⟩ program) := .fresh {} {} #[] program
  have hregistered : Config.Reachable ⟨⟨{ hosts }, {}, #[.logged (.registered "replace" 0 false)]⟩,
      .host (.act (.load chunk.encode) fun _ ↦ .done .ok), []⟩ := by
    refine hstart.step ?_
    simp [Config.start, Config.step, Config.hostStep, World.register, World.log,
      HostRegistry.contains, program, hosts, replace]
  exact hregistered.step (step_load loadable _ _ _)

/-- What the parts of the machine share while `renew` executes. -/
def shared : Shared Empty :=
  (Shared.ofWorld world).log (.codeCalled "renew" 0)

def run (pc : Nat) : Run :=
  ⟨chunk, ⟨0, pc, [], []⟩, []⟩

/-- What they share when `replace` has loaded the other chunk. -/
def replaced : Shared Empty :=
  .ofWorld ((shared.seen []).install Answering.chunk)

/-- The trap in which `renew` ends. -/
def trap : Trap :=
  ⟨.hostFailed "replace" .runtimeError, "renew", 1⟩

theorem turn_run : (run 1).turn shared 0 0 = .calls "replace" replace [] (run 1) := by
  have hinstruction : (run 1).chunk.instruction? (run 1).frame.function (run 1).frame.pc
      = some { opcode := .callHost } := rfl
  have hconstant : (run 1).chunk.stringConstant? 0 = some (Text.Utf8.encode "replace") := rfl
  have hname : Text.Utf8.decode? (Text.Utf8.encode "replace") = some "replace" := by decide +kernel
  have hshown : Text.Utf8.decodeLossy (Text.Utf8.encode "replace") = "replace" := by
    decide +kernel
  have hget : shared.hosts.get? "replace" = some replace := by
    simp [shared, Shared.log, Shared.ofWorld, world, hosts, HostRegistry.get?,
      HostRegistry.register]
  rw [Run.turn, hinstruction]
  change (run 1).hostTurn shared 0 { opcode := .callHost } = _
  simp only [Run.hostTurn, hconstant, hname, hshown, Option.bind_some, hget]
  rfl

theorem ends : (codeMachine (.ofWorld world) [] 0 "renew" chunk 0 []).Ends ⟨[], 0⟩ replaced
    (.code (.error trap)) := by
  refine ⟨4, ?_⟩
  change ((Separate.Progress.ofTurn shared .outside ((run 1).turn shared 0 0)).after ⟨[], 0⟩ 2) = _
  rw [turn_run]
  change (Separate.Progress.more (Separate.Config.operate shared [] (.bytecode "replace" (run 1)
    .outside) (fun w ↦ w.load Answering.chunk.encode) fun _ ↦ .done .runtimeError)).after
      ⟨[], 0⟩ 1 = _
  rw [Separate.Config.operate, World.load_of_loadable Answering.loadable]
  rfl

def worldAfter : World Empty :=
  replaced.afterCode [] 0 0 (.error trap)

theorem callReturns : world.CallReturns "renew" 0 (.error (.trapped trap)) worldAfter := by
  have hshadow : world.machine.hosts.get? "renew" = none := by
    simp [world, hosts, HostRegistry.get?, HostRegistry.register]
  have hdispatch : world.machine.dispatch "renew" 0 = .ok (.code chunk 0) :=
    @dispatch_of_loaded _ world.machine chunk 0 function verified rfl rfl hshadow (by decide)
  exact (@callReturns_code_iff Empty (.ofWorld world) [] [] 0 0 "renew" _ worldAfter chunk 0
    (Nat.zero_le _) hdispatch).mpr ⟨replaced, .error trap, ends, rfl, rfl⟩

end Replacing

theorem traps_point_at_their_instruction_replacing :
    Config.Reachable ⟨Replacing.world, .host (.done .ok), []⟩ ∧
      Replacing.world.CallReturns "renew" 0 (.error (.trapped Replacing.trap))
        Replacing.worldAfter ∧
      Replacing.worldAfter.machine.chunk = some Answering.chunk ∧
      ∃ called, Replacing.chunk.Diagnoses called Replacing.trap := by
  obtain ⟨chunk, called, hchunk, -, -, hdiagnoses⟩ :=
    traps_point_at_their_instruction Replacing.reachable Replacing.callReturns
  cases hchunk
  exact ⟨Replacing.reachable, Replacing.callReturns, rfl, called, hdiagnoses⟩

end Bytecode
