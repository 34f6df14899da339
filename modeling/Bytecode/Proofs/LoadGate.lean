import Bytecode.Proofs.ErrorLog
import Bytecode.Proofs.HostCode
import Bytecode.Proofs.OperandSafety

/-!
# The load gate

A machine executes the chunk it has loaded without looking at it again, so everything depends on
what is loaded. There is one way in: bytes are decoded and the chunk is verified. Nothing else that
host code or bytecode does touches the loaded chunk (`reloads_step`), and nothing takes it away.

A load may come at any moment, also from a host function that the loaded chunk itself has called.
Either the whole chunk is replaced, or nothing is and the failure is recorded.
-/

namespace Bytecode

variable {ν : Type}

/-- The bytes are those of a chunk that may be executed. -/
def Loadable (bytes : Bytes) (chunk : Chunk) : Prop :=
  bytes ≠ [] ∧ Chunk.decode bytes = .ok chunk ∧ chunk.Verified

/-- Whether bytes are those of a chunk can be evaluated. -/
theorem Loadable.of_toOption {bytes : Bytes} {chunk : Chunk} (hnonempty : bytes ≠ [])
    (hdecode : (Chunk.decode bytes).toOption = some chunk) (hverified : chunk.Verified) :
    Loadable bytes chunk := by
  refine ⟨hnonempty, ?_, hverified⟩
  cases hbytes : Chunk.decode bytes with
  | ok found =>
    rw [hbytes] at hdecode
    exact congrArg _ (Option.some.inj hdecode)
  | error cause =>
    rw [hbytes] at hdecode
    cases hdecode

/-! ## Loading -/

theorem World.load_of_loadable {bytes : Bytes} {chunk : Chunk} (h : Loadable bytes chunk)
    (w : World ν) : w.load bytes = (.ok (), w.install chunk) := by
  rw [load, Machine.admit_eq_ok_iff.mpr h]

theorem World.load_of_not_loadable {bytes : Bytes} (h : ¬∃ chunk, Loadable bytes chunk)
    (w : World ν) : ∃ failure, w.load bytes = w.fail failure := by
  rw [load]
  cases hadmit : Machine.admit bytes with
  | ok chunk => exact absurd ⟨chunk, Machine.admit_eq_ok_iff.mp hadmit⟩ h
  | error failure => exact ⟨failure, rfl⟩

theorem step_load {bytes : Bytes} {chunk : Chunk} (h : Loadable bytes chunk) (w : World ν)
    (next : Reply → HostProgram ν) (calls : List (HostCall ν)) :
    Config.step ⟨w, .host (.act (.load bytes) next), calls⟩
      = .more ⟨w.install chunk, .host (next (.ok ())), calls⟩ := by
  simp only [Config.step, Config.hostStep, Command.perform, w.load_of_loadable h]

/-- What a load comes to. A chunk that may be executed becomes the loaded one, without an
announcement. Anything else is a failure, which is recorded and announced once. -/
structure World.Loads (w : World ν) (bytes : Bytes) (reply : Reply) (w' : World ν) : Prop where
  reply_ok_iff : reply = .ok () ↔ ∃ chunk, Loadable bytes chunk
  files : w'.files = w.files
  loaded {chunk : Chunk} : Loadable bytes chunk →
    w'.machine = { w.machine with chunk := some chunk } ∧ heard w'.journal = heard w.journal
  failed {failure : Failure} : reply = .error failure →
    w'.machine = { w.machine with
      errors := { w.machine.errors with record := some ⟨failure.status, failure.message⟩ } } ∧
    heard w'.journal = heard w.journal
      ++ (w.machine.errors.listener.map fun hear ↦ hear failure.message).toList

theorem World.loads (w : World ν) (bytes : Bytes) :
    w.Loads bytes (w.load bytes).1 (w.load bytes).2 := by
  by_cases hloadable : ∃ chunk, Loadable bytes chunk
  · obtain ⟨chunk, hchunk⟩ := hloadable
    rw [w.load_of_loadable hchunk]
    have hheard : heard (w.install chunk).journal = heard w.journal := by
      simp [install, log, heard, Event.heard?]
    constructor
    · exact ⟨fun _ ↦ ⟨chunk, hchunk⟩, fun _ ↦ rfl⟩
    · rfl
    · intro chunk' hchunk'
      cases hchunk.2.1.symm.trans hchunk'.2.1
      exact ⟨rfl, hheard⟩
    · intro failure hfailure
      cases hfailure
  · obtain ⟨failure, hfail⟩ := w.load_of_not_loadable hloadable
    rw [hfail]
    have hheard := (w.errorLog.follows_raise (.failed failure) rfl).heard
    rw [firings_singleton rfl] at hheard
    constructor
    · refine ⟨fun hok ↦ ?_, fun h ↦ absurd h hloadable⟩
      cases hok
    · rfl
    · intro chunk hchunk
      exact absurd ⟨chunk, hchunk⟩ hloadable
    · intro failure' hfailure
      cases hfailure
      exact ⟨rfl, hheard⟩

theorem functionArity_eq {chunk : Chunk} {index : Nat} {f : FunctionDef}
    (hf : chunk.functions[index]? = some f) : chunk.functionArity index = f.arity.toNat := by
  rw [Chunk.functionArity, hf]

/-- In a verified chunk that is loaded, the name of a function means the function, unless host code
has registered the name. -/
theorem dispatch_of_loaded {m : Machine ν} {chunk : Chunk} {index : Nat} {f : FunctionDef}
    (hverified : chunk.Verified) (hloaded : m.chunk = some chunk)
    (hf : chunk.functions[index]? = some f) (hshadow : m.hosts.get? f.name = none)
    (hheight : f.arity.toNat ≤ m.stack.height) :
    m.dispatch f.name f.arity.toNat = .ok (.code chunk index) := by
  obtain ⟨hname, hindex⟩ := Verify.functionIndex?_of_verified hverified hf
  simp only [Machine.dispatch, if_neg hname, if_neg (Nat.not_lt.mpr hheight), hshadow, hloaded,
    hindex, functionArity_eq hf, if_pos]

/-! ## Steps -/

namespace Separate

variable {b : Awaited}

/-- The loaded chunk stays, or it is replaced by one that was admitted. -/
def Reloads (before after : Option Chunk) : Prop :=
  after = before ∨ ∃ bytes chunk, Machine.admit bytes = .ok chunk ∧ after = some chunk

theorem Reloads.isSome {before after : Option Chunk} (h : Reloads before after)
    (hbefore : before.isSome) : after.isSome := by
  rcases h with rfl | ⟨bytes, chunk, -, rfl⟩
  · exact hbefore
  · rfl

/-- A step of bytecode leaves the loaded chunk alone, and so does one of host code unless it loads
another. -/
theorem reloads_step (g : Ground) (own : Config ν b) :
    Reloads own.shared.chunk (own.step g).shared.chunk := by
  obtain ⟨s, control⟩ := own
  cases control with
  | code run waiting => exact .inl (chunk_ofTurn s waiting _)
  | host window program waiting =>
    cases program with
    | done status => exact .inl (Shared.chunk_of_lasting (lasting_done s status window waiting))
    | call name arguments next =>
      exact .inl (Shared.chunk_of_lasting (lasting_call g s window waiting name arguments next))
    | act command next => exact RunProperty.loadsAdmitted_perform (s.seen window) command
    | register name arity body next =>
      exact RunProperty.loadsAdmitted_register (s.seen window) name ⟨arity, body⟩
    | ask query next => exact .inl rfl
    | note note next => exact .inl rfl

end Separate

open Separate

/-! ## Sessions -/

namespace Config

/-- What may come later in a session: what the machine does next, and once the outermost program is
done, whatever the embedding code runs on the machine after it. -/
inductive Leads (c : Config ν) : Config ν → Prop where
  | refl : Leads c c
  | step {d e : Config ν} (h : Leads c d) (hstep : d.step = .more e) : Leads c e
  | restart {d : Config ν} {status : Status} {w : World ν} (h : Leads c d)
    (hstep : d.step = .halted status w) (files : Files) (journal : Array (Event ν))
    (program : HostProgram ν) : Leads c (.start ⟨w.machine, files, journal⟩ program)

theorem reloads_of_reachable {c : Config ν} (h : c.Reachable) :
    Reloads c.world.machine.chunk c.step.world.machine.chunk := by
  obtain ⟨own, rfl, -⟩ := exists_onto_of_reachable RunProperty.anything_kept h
  have hnext := (own.step (.nothing : Outside ν).toGround).ofWorld_onto
  rw [← step_onto] at hnext
  have hreloads := reloads_step (.nothing : Outside ν).toGround own
  rw [← hnext, ← own.ofWorld_onto .nothing] at hreloads
  exact hreloads

variable {c d : Config ν}

theorem Leads.reachable (h : c.Leads d) (hc : c.Reachable) : d.Reachable := by
  induction h with
  | refl => exact hc
  | step _ hstep ih => exact ih.step hstep
  | restart _ hstep files journal program ih => exact ih.restart hstep files journal program

/-- Nothing takes the loaded chunk away. -/
theorem Leads.isSome_chunk (h : c.Leads d) (hc : c.Reachable)
    (hsome : c.world.machine.chunk.isSome) : d.world.machine.chunk.isSome := by
  induction h with
  | refl => exact hsome
  | step hd hstep ih =>
    have hreloads := reloads_of_reachable (hd.reachable hc)
    rw [hstep] at hreloads
    exact hreloads.isSome ih
  | restart hd hstep files journal program ih =>
    have hreloads := reloads_of_reachable (hd.reachable hc)
    rw [hstep] at hreloads
    exact hreloads.isSome ih

theorem Reachable.verified (h : c.Reachable) {chunk : Chunk}
    (hchunk : c.world.machine.chunk = some chunk) : chunk.Verified := by
  obtain ⟨own, rfl, hloaded, -⟩ := exists_onto_of_reachable wellPlaced_kept h
  rw [← own.ofWorld_onto .nothing] at hloaded
  exact hloaded chunk hchunk

end Config

/-- In every state that embedding code can bring about, the loaded chunk, if there is one, is
verified, and its functions are found by their names. A load made there succeeds just if the bytes
are those of a verified chunk, and then it changes nothing but the loaded chunk; otherwise it
changes nothing but the error record. A machine with a chunk is never without one again. -/
theorem only_verified_chunks_are_loaded {c : Config ν} (hreach : c.Reachable) :
    (∀ chunk, c.world.machine.chunk = some chunk → chunk.Verified ∧
      ∀ i f, chunk.functions[i]? = some f → chunk.functionIndex? f.name = some i) ∧
    (∀ bytes, ∃ reply w', (Host.load bytes).Returns c.world reply w' ∧
      c.world.Loads bytes reply w') ∧
    (c.world.machine.chunk.isSome → ∀ d, c.Leads d → d.world.machine.chunk.isSome) := by
  refine ⟨fun chunk hchunk ↦ ?_, fun bytes ↦ ?_, fun hsome d hleads ↦ ?_⟩
  · have hverified := hreach.verified hchunk
    exact ⟨hverified, fun i f hf ↦ (Verify.functionIndex?_of_verified hverified hf).2⟩
  · exact ⟨_, _, Host.returns_act c.world (.load bytes), c.world.loads bytes⟩
  · exact hleads.isSome_chunk hreach hsome

/-! ## Inside a host function that bytecode has called -/

namespace Answering

/-- A host function that answers null. -/
def answer : HostFunction Empty :=
  ⟨0, .act (.push .null) fun _ ↦ .done .ok⟩

def hosts : HostRegistry Empty :=
  HostRegistry.register {} "answer" answer

/-- A function that returns what `answer` leaves. -/
def function : FunctionDef :=
  ⟨"ask", 0, 0, #[{ opcode := .callHost }, { opcode := .ret }]⟩

def chunk : Chunk :=
  ⟨#[.str (Text.Utf8.encode "answer")], #[function]⟩

theorem verified : chunk.Verified :=
  Verify.verified_of_single (by decide) (by decide) (by decide) (by decide) (by decide)

theorem loadable : Loadable chunk.encode chunk :=
  .of_toOption nofun (by decide +kernel) verified

/-- The machine with `chunk` loaded, where bytecode may push nothing. -/
def world (values : Array Value) (depth : Nat) (events : List (Event Empty)) : World Empty :=
  ⟨{ stack := ⟨values, 0⟩, chunk := some chunk, hosts, limits := { stackDepth := 0 }, depth }, {},
    (.logged (.registered "answer" 0 false) :: .logged (.loaded 1 1 false) :: events).toArray⟩

/-- The embedding program once it has loaded `chunk`. -/
def calling : HostProgram Empty :=
  .call "ask" 0 fun _ ↦ .done .ok

theorem reachable : Config.Reachable ⟨world #[] 0 [], .host calling, []⟩ := by
  let program : HostProgram Empty :=
    .register "answer" 0 answer.body fun _ ↦ .act (.load chunk.encode) fun _ ↦ calling
  have hstart : Config.Reachable (.start ⟨{ limits := { stackDepth := 0 } }, {}, #[]⟩ program) :=
    .fresh { stackDepth := 0 } {} #[] program
  have hregistered : Config.Reachable ⟨⟨{ hosts, limits := { stackDepth := 0 } }, {},
      #[.logged (.registered "answer" 0 false)]⟩,
      .host (.act (.load chunk.encode) fun _ ↦ calling), []⟩ := by
    refine hstart.step ?_
    simp [Config.start, Config.step, Config.hostStep, World.register, World.log,
      HostRegistry.contains, program, hosts, answer]
  exact hregistered.step (step_load loadable _ _ _)

/-- What is noted when `ask` is called. -/
def called : List (Event Empty) :=
  [.logged (.codeCalled "ask" 0)]

def run (pc : Nat) : CodeRun Empty :=
  ⟨chunk, ⟨0, pc, 0, 0⟩, [], 0, 0, fun _ ↦ .done .ok⟩

/-- The machine when `ask` has just been called. -/
def asking : Config Empty :=
  ⟨world #[] 1 called, .code (run 0), []⟩

theorem step_calling : Config.step ⟨world #[] 0 [], .host calling, []⟩ = .more asking := by
  have hshadow : (world #[] 0 []).machine.hosts.get? "ask" = none := by
    simp [world, hosts, HostRegistry.get?, HostRegistry.register]
  have hdispatch : (world #[] 0 []).machine.dispatch "ask" 0 = .ok (.code chunk 0) :=
    @dispatch_of_loaded _ (world #[] 0 []).machine chunk 0 function verified rfl rfl hshadow
      (by decide)
  change Progress.more (Config.call (world #[] 0 []) [] "ask" 0 fun _ ↦ .done .ok) = _
  rw [Config.call, hdispatch]
  rfl

theorem hostTarget_eq : (world #[] 1 called).machine.hostTarget (run 0).chunk (run 0).frame
    { opcode := .callHost } = .ok ("answer", answer) := by
  have hconstant : (run 0).chunk.stringConstant? 0 = some (Text.Utf8.encode "answer") := rfl
  have hname : Text.Utf8.decode? (Text.Utf8.encode "answer") = some "answer" := by decide +kernel
  have hshown : Text.Utf8.decodeLossy (Text.Utf8.encode "answer") = "answer" := by decide +kernel
  have hget : (world #[] 1 called).machine.hosts.get? "answer" = some answer := by
    simp [world, hosts, HostRegistry.get?, HostRegistry.register]
  simp only [Machine.hostTarget, hconstant, hname, hshown, Option.bind_some, hget]
  rfl

/-- The machine while `answer` executes. -/
def answering : Config Empty :=
  ⟨world #[] 2 called, .host answer.body, [⟨"answer", 0, .code (run 0) 0⟩]⟩

theorem step_asking : asking.step = .more answering := by
  change Progress.more (Config.hostInstruction (world #[] 1 called) (run 0) []
    { opcode := .callHost }) = _
  rw [Config.hostInstruction, hostTarget_eq]
  rfl

theorem reachable_answering : answering.Reachable :=
  (reachable.step step_calling).step step_asking

/-- The machine with the result of `answer` on its stack. -/
def answered : Config Empty :=
  ⟨world #[.null] 1 called, .code (run 1), []⟩

theorem after_asking : (Progress.more asking).after 3 = .more answered := by
  rw [Progress.after_more_succ, step_asking]
  rfl

end Answering

theorem only_verified_chunks_are_loaded_answering :
    Answering.answering.Reachable ∧
      Answering.chunk.functionIndex? "ask" = some 0 ∧
      (∃ reply w', (Host.load Answering.chunk.encode).Returns Answering.answering.world reply w' ∧
        reply = .ok ()) ∧
      (∃ reply w', (Host.load []).Returns Answering.answering.world reply w' ∧ reply ≠ .ok () ∧
        w'.machine.chunk = some Answering.chunk) ∧
      ∀ d, Answering.answering.Leads d → d.world.machine.chunk.isSome := by
  obtain ⟨hloaded, hload, hstays⟩ := only_verified_chunks_are_loaded Answering.reachable_answering
  refine ⟨Answering.reachable_answering, ?_, ?_, ?_, hstays rfl⟩
  · exact (hloaded Answering.chunk rfl).2 0 Answering.function rfl
  · obtain ⟨reply, w', hreturn, hloads⟩ := hload Answering.chunk.encode
    exact ⟨reply, w', hreturn, hloads.reply_ok_iff.mpr ⟨_, Answering.loadable⟩⟩
  · obtain ⟨reply, w', hreturn, hloads⟩ := hload []
    have hfails : reply ≠ .ok () := by
      intro hok
      obtain ⟨chunk, hnonempty, -⟩ := hloads.reply_ok_iff.mp hok
      exact hnonempty rfl
    refine ⟨reply, w', hreturn, hfails, ?_⟩
    cases reply with
    | ok => exact absurd rfl hfails
    | error failure =>
      rw [(hloads.failed rfl).1]
      rfl

end Bytecode
