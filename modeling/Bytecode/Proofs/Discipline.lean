import Bytecode.Proofs.Separate.Lockstep

/-!
# Windows and the depth counter

The machine keeps a window base and a depth counter by hand: calls move them, and every way in which
a call can end has to put them back. It guards its arithmetic on them by clamps, which would turn a
mistake into a window that is silently wrong.

In every state that embedding code can bring about, inside host functions included, the base and the
counter say what they should (`Config.Disciplined`), and no clamp takes effect
(`Config.Unclamped`). Windows nest like brackets: opening one puts its base on top of those before,
closing it leaves exactly these.

All of this holds because a reachable configuration is a placement of separate frames, where bases
and depths are sizes of what lies below. So only sizes along a chain of callers have to be compared.
-/

namespace Bytecode

variable {ν : Type}

/-! ## Live frames and open windows -/

/-- The live frames of a run, the innermost first. -/
def CodeRun.frames (run : CodeRun ν) : List Frame :=
  run.frame :: run.outer

def Caller.frames : Caller ν → List Frame
  | .program _ => []
  | .code run _ => run.frames

def Control.frames : Control ν → List Frame
  | .host _ => []
  | .code run => run.frames

namespace Config

/-- All live frames, the innermost first. -/
def frames (c : Config ν) : List Frame :=
  c.control.frames ++ c.calls.flatMap fun call ↦ call.caller.frames

/-- The number of live frames and open windows. -/
def live (c : Config ν) : Nat :=
  c.frames.length + c.calls.length

/-- The base of the window that is open now, then those of the windows around it. -/
def bases (c : Config ν) : List Nat :=
  c.world.machine.stack.base :: c.calls.map HostCall.outerBase

@[simp] theorem length_bases (c : Config ν) : c.bases.length = c.calls.length + 1 := by
  simp [bases]

/-! ## The discipline -/

/-- The base and the counter say what they should. -/
structure Disciplined (c : Config ν) : Prop where
  base_le : c.world.machine.stack.base ≤ c.world.machine.stack.size
  depth_eq : c.world.machine.depth = c.live
  /-- Inner windows do not begin below outer ones. -/
  nested : c.bases.Pairwise (· ≥ ·)
  /-- The frames that execute lie in the window that is open now. -/
  executing : ∀ frame ∈ c.control.frames, c.world.machine.stack.base ≤ frame.base
  /-- The frames that wait for a host function lie in the window that was open when they called. -/
  waiting : ∀ call ∈ c.calls, ∀ frame ∈ call.caller.frames, call.outerBase ≤ frame.base

/-- No clamp takes effect in the next step, and nothing that it subtracts is too large. A run that
may trap cuts the stack at its first argument, a frame that returns at its first local. -/
def Unclamped : Config ν → Prop
  | ⟨w, .host (.call name arguments _), _⟩ =>
    let stack := w.machine.stack
    match w.machine.dispatch name arguments with
    | .error _ => True
    | .ok (.host _) => min arguments stack.height = arguments
    | .ok (.code chunk index) =>
      let first := stack.size - chunk.functionArity index
      chunk.functionArity index ≤ stack.size ∧ max first stack.base = first
  | ⟨w, .host (.done _), call :: _⟩ =>
    let stack := w.machine.stack
    min call.outerBase stack.size = call.outerBase ∧ 1 ≤ w.machine.depth ∧
      match call.caller with
      | .program _ => True
      | .code run window =>
        window ≤ stack.size ∧ max run.argumentsBase call.outerBase = run.argumentsBase
  | ⟨w, .code run, _⟩ =>
    let stack := w.machine.stack
    max run.argumentsBase stack.base = run.argumentsBase ∧
      max run.frame.base stack.base = run.frame.base ∧ 1 ≤ w.machine.depth ∧
      ∀ i target, run.chunk.instruction? run.frame.function run.frame.pc = some i →
        w.machine.hostTarget run.chunk run.frame i = .ok target →
        min i.arg2.toNat stack.height = i.arg2.toNat
  | _ => True

/-- A step opens a window, closes one or does neither. -/
def Shifts (before after : List Nat) : Prop :=
  after = before ∨ (∃ base, after = base :: before) ∨ ∃ base, before = base :: after

end Config

namespace Separate

variable {b : Awaited}

/-! ## Chains -/

@[simp] theorem length_placedFrames (below : Nat) (frames : List Frame) :
    (placedFrames below frames).length = frames.length := by
  induction frames with
  | nil => rfl
  | cons f outer ih => simp [placedFrames, ih]

theorem le_base_of_mem_placedFrames {below : Nat} {frames : List Frame} {frame : Bytecode.Frame}
    (h : frame ∈ placedFrames below frames) : below ≤ frame.base := by
  induction frames with
  | nil => cases h
  | cons f outer ih =>
    rcases List.mem_cons.mp h with rfl | h
    · exact Nat.le_add_right _ _
    · exact ih h

namespace Run

theorem length_frames_placed (run : Run) (below before : Nat) (resume : Reply → HostProgram ν) :
    (run.placed below before resume).frames.length = run.depth := by
  simp [CodeRun.frames, placed, depth]

theorem le_base_of_mem_frames {run : Run} {below before : Nat} {resume : Reply → HostProgram ν}
    {frame : Bytecode.Frame} (h : frame ∈ (run.placed below before resume).frames) :
    below ≤ frame.base := by
  rcases List.mem_cons.mp h with rfl | h
  · exact Nat.le_add_right _ _
  · exact le_base_of_mem_placedFrames h

end Run

namespace Waiting

/-- The base of the window that is open. -/
def openBase (o : Outside ν) : {a : Awaited} → Waiting ν b a → Nat
  | .host, waiting => (waiting.values o.values).length
  | .code, waiting => waiting.base o

/-- The base of the window that is open, then those of the windows around it. -/
def bases (o : Outside ν) {a : Awaited} (waiting : Waiting ν b a) : List Nat :=
  waiting.openBase o :: (waiting.calls o).map HostCall.outerBase

theorem openBase_le (o : Outside ν) : {a : Awaited} → (waiting : Waiting ν b a) →
    waiting.openBase o ≤ (waiting.values o.values).length
  | .host, _ => Nat.le_refl _
  | .code, waiting => waiting.base_le o

section Bases

variable (o : Outside ν) (name : String) (caller : Suspended ν) (run : Run)

theorem bases_program (rest : Waiting ν b .host) :
    (program name caller rest).bases o
      = (rest.values o.values ++ caller.window).length :: rest.bases o := rfl

theorem bases_bytecode (rest : Waiting ν b .code) :
    (bytecode name run rest).bases o
      = (rest.values o.values ++ run.values).length :: rest.bases o := rfl

end Bases

/-- With nothing outside, the depth counts the frames and windows of the chain. -/
theorem depth_eq {a : Awaited} (waiting : Waiting ν b a) :
    waiting.depth 0 = ((waiting.calls .nothing).flatMap fun call ↦ call.caller.frames).length
      + (waiting.calls .nothing).length := by
  induction waiting with
  | outside => rfl
  | program name caller rest ih =>
    rw [depth, ih]
    simp only [calls, List.flatMap_cons, Caller.frames, List.nil_append, List.length_cons]
    omega
  | bytecode name run rest ih =>
    rw [depth, ih]
    simp only [calls, List.flatMap_cons, Caller.frames, List.length_append, List.length_cons,
      Run.length_frames_placed]
    omega
  | entry caller rest ih => exact ih

theorem le_length_of_mem_bases {o : Outside ν} {a : Awaited} {waiting : Waiting ν b a} {base : Nat}
    (h : (waiting.bases o).Pairwise (· ≥ ·)) (hbase : base ∈ waiting.bases o) :
    base ≤ (waiting.values o.values).length := by
  rcases List.mem_cons.mp hbase with rfl | hbase
  · exact waiting.openBase_le o
  · exact Nat.le_trans ((List.pairwise_cons.mp h).1 base hbase) (waiting.openBase_le o)

theorem pairwise_bases {a : Awaited} (waiting : Waiting ν b a) :
    (waiting.bases .nothing).Pairwise (· ≥ ·) := by
  induction waiting with
  | outside => exact List.pairwise_singleton _ _
  | program name caller rest ih =>
    rw [bases_program, List.length_append]
    refine List.pairwise_cons.mpr ⟨fun base hbase ↦ ?_, ih⟩
    exact Nat.le_add_right_of_le (le_length_of_mem_bases ih hbase)
  | bytecode name run rest ih =>
    rw [bases_bytecode, List.length_append]
    refine List.pairwise_cons.mpr ⟨fun base hbase ↦ ?_, ih⟩
    exact Nat.le_add_right_of_le (le_length_of_mem_bases ih hbase)
  | entry caller rest ih => exact ih

/-- The frames that wait lie above the base that comes back when the host function is done. -/
theorem outerBase_le {a : Awaited} {waiting : Waiting ν b a} {call : HostCall ν}
    {frame : Bytecode.Frame} (hcall : call ∈ waiting.calls .nothing)
    (hframe : frame ∈ call.caller.frames) : call.outerBase ≤ frame.base := by
  induction waiting with
  | outside => cases hcall
  | program name caller rest ih =>
    rcases List.mem_cons.mp hcall with rfl | hcall
    · cases hframe
    · exact ih hcall
  | bytecode name run rest ih =>
    rcases List.mem_cons.mp hcall with rfl | hcall
    · exact Nat.le_trans (rest.base_le .nothing) (Run.le_base_of_mem_frames hframe)
    · exact ih hcall
  | entry caller rest ih => exact ih hcall

end Waiting

/-! ## Placements -/

theorem Config.disciplined_onto (own : Config ν b) : (own.onto .nothing).Disciplined := by
  obtain ⟨s, control⟩ := own
  cases control with
  | host window program waiting =>
    exact {
      base_le := by simp [onto, Shared.hostWorld]
      depth_eq := waiting.depth_eq
      nested := waiting.pairwise_bases
      executing := fun _ hframe ↦ absurd hframe List.not_mem_nil
      waiting := fun _ hcall _ hframe ↦ Waiting.outerBase_le hcall hframe }
  | code run waiting =>
    have hdepth : waiting.depth 0 + run.depth = (onto .nothing ⟨s, .code run waiting⟩).live := by
      rw [waiting.depth_eq, Bytecode.Config.live, Bytecode.Config.frames, List.length_append]
      simp only [onto, Control.frames, Run.above, Run.length_frames_placed]
      omega
    have hbase := waiting.base_le .nothing
    exact {
      base_le := by
        simp only [onto, Shared.codeWorld, Shared.stack_world, Stack.size_mk, List.length_append]
        exact Nat.le_add_right_of_le hbase
      depth_eq := hdepth
      nested := waiting.pairwise_bases
      executing := fun _ hframe ↦ Nat.le_trans hbase (Run.le_base_of_mem_frames hframe)
      waiting := fun _ hcall _ hframe ↦ Waiting.outerBase_le hcall hframe }

theorem unclamped_call {w : World ν} (name : String) (arguments : Nat)
    (next : Reply → HostProgram ν) (calls : List (HostCall ν))
    (hbase : w.machine.stack.base ≤ w.machine.stack.size) :
    Bytecode.Config.Unclamped ⟨w, .host (.call name arguments next), calls⟩ := by
  rw [Bytecode.Config.Unclamped]
  cases hdispatch : w.machine.dispatch name arguments with
  | error failure => trivial
  | ok callee =>
    obtain ⟨hheight, hcallee⟩ := dispatch_ok hdispatch
    cases callee with
    | host function => exact Nat.min_eq_left hheight
    | code chunk index =>
      obtain ⟨-, -, rfl⟩ := hcallee
      change _ ≤ w.machine.stack.size - w.machine.stack.base at hheight
      exact ⟨by omega, Nat.max_eq_left (by omega)⟩

theorem unclamped_done (s : Shared ν) (window : List Value) (status : Status)
    (waiting : Waiting ν b .host) :
    (Config.onto .nothing ⟨s, .host window (.done status) waiting⟩).Unclamped := by
  have hsize : (s.hostWorld .nothing window waiting).machine.stack.size
      = (waiting.values [] ++ window).length := Stack.size_mk _
  cases waiting with
  | outside => trivial
  | program name caller rest =>
    have hle : (rest.values []).length ≤ (Waiting.values [] (.program name caller rest)
        ++ window).length := by
      simp [Waiting.values]
    rw [← hsize] at hle
    exact ⟨Nat.min_eq_left hle, Nat.le_add_left _ _, trivial⟩
  | bytecode name run rest =>
    have hle : (rest.values []).length + run.values.length
        ≤ (Waiting.values [] (.bytecode name run rest) ++ window).length := by
      simp [Waiting.values]
    rw [← hsize] at hle
    have hbase : rest.base .nothing ≤ (rest.values []).length := rest.base_le .nothing
    have houter := Nat.le_trans (Nat.le_add_right_of_le hbase) hle
    exact ⟨Nat.min_eq_left houter, Nat.le_add_left _ _, hle, Nat.max_eq_left hbase⟩

theorem unclamped_code (s : Shared ν) (run : Run) (waiting : Waiting ν b .code) :
    (Config.onto .nothing ⟨s, .code run waiting⟩).Unclamped := by
  have hbase : waiting.base .nothing ≤ (waiting.values []).length := waiting.base_le .nothing
  refine ⟨Nat.max_eq_left hbase, Nat.max_eq_left (Nat.le_add_right_of_le hbase),
    Nat.le_add_left _ _, fun i target _ htarget ↦ Nat.min_eq_left ?_⟩
  have hoperands := le_operands_of_hostTarget .nothing htarget
  have hheight : (s.codeWorld .nothing run waiting).machine.stack.height
      = (waiting.values [] ++ run.values).length - waiting.base .nothing := by
    rw [← Stack.size_mk]
    rfl
  simp only [hheight, Run.values, Frame.values, List.length_append, List.length_reverse]
  omega

theorem Config.unclamped_onto (own : Config ν b) : (own.onto .nothing).Unclamped := by
  have hbase := own.disciplined_onto.base_le
  obtain ⟨s, control⟩ := own
  cases control with
  | code run waiting => exact unclamped_code s run waiting
  | host window program waiting =>
    cases program with
    | call name arguments next => exact unclamped_call name arguments next _ hbase
    | done status => exact unclamped_done s window status waiting
    | ask | act | register | note => trivial

/-! ## Steps -/

/-- What a step comes to that was made with these bases. -/
def Progress.Shifts (before : List Nat) : Progress ν b → Prop
  | .more c => Bytecode.Config.Shifts before (c.onto .nothing).bases
  | .ended _ _ => True

/-- A bytecode function leaves the windows of its caller alone when it ends. -/
theorem shifts_finish {before : List Nat} (s : Shared ν) (outcome : Outcome)
    {waiting : Waiting ν b .code}
    (h : Bytecode.Config.Shifts before (waiting.bases .nothing)) :
    (Progress.finish s outcome waiting).Shifts before := by
  cases waiting with
  | outside => trivial
  | entry caller rest =>
    cases outcome with
    | ok value => exact h
    | error trap => exact h

theorem shifts_enter (g : Ground) (s : Shared ν) (chunk : Chunk) (index : Nat)
    (arguments : List Value) (waiting : Waiting ν b .code) :
    (Config.enter g s chunk index arguments waiting).Shifts (waiting.bases .nothing) := by
  rw [Config.enter]
  split
  · exact .inl rfl
  · exact shifts_finish s _ (.inl rfl)

theorem shifts_ofTurn (s : Shared ν) (waiting : Waiting ν b .code) (turn : Turn ν) :
    (Progress.ofTurn s waiting turn).Shifts (waiting.bases .nothing) := by
  cases turn with
  | goes run globals => exact .inl rfl
  | calls name function arguments run => exact .inr (.inl ⟨_, rfl⟩)
  | ends outcome => exact shifts_finish s outcome (.inl rfl)

theorem shifts_accept (s : Shared ν) (name : String) (status : Status) (results : List Value)
    (run : Run) (waiting : Waiting ν b .code) (base : Nat) :
    (Progress.ofTurn s waiting (run.accept s name status results)).Shifts
      (base :: waiting.bases .nothing) := by
  unfold Run.accept
  split
  · exact shifts_finish s _ (.inr (.inr ⟨_, rfl⟩))
  split
  · exact .inr (.inr ⟨_, rfl⟩)
  · exact shifts_finish s _ (.inr (.inr ⟨_, rfl⟩))

theorem shifts_done (s : Shared ν) (status : Status) (window : List Value)
    (waiting : Waiting ν b .host) :
    (Config.done s status window waiting).Shifts (waiting.bases .nothing) := by
  cases waiting with
  | outside => trivial
  | program name caller rest =>
    rw [Config.done]
    split
    · exact .inr (.inr ⟨_, rfl⟩)
    · exact .inr (.inr ⟨_, rfl⟩)
  | bytecode name run rest => exact shifts_accept s name status window run rest _

theorem shifts_call (g : Ground) (s : Shared ν) (window : List Value) (waiting : Waiting ν b .host)
    (name : String) (arguments : Nat) (next : Reply → HostProgram ν) :
    (Config.call g s window waiting name arguments next).Shifts (waiting.bases .nothing) := by
  rw [Config.call]
  cases (s.seen window).machine.dispatch name arguments with
  | error failure => exact .inl rfl
  | ok callee =>
    cases callee with
    | host function =>
      dsimp only
      split
      · exact .inl rfl
      · exact .inr (.inl ⟨_, rfl⟩)
    | code chunk index => exact shifts_enter g _ chunk index _ (.entry _ waiting)

theorem Config.shifts_step (g : Ground) (own : Config ν b) :
    (own.step g).Shifts (own.onto .nothing).bases := by
  obtain ⟨s, control⟩ := own
  cases control with
  | code run waiting => exact shifts_ofTurn s waiting _
  | host window program waiting =>
    cases program with
    | done status => exact shifts_done s status window waiting
    | call name arguments next => exact shifts_call g s window waiting name arguments next
    | ask | act | register | note => exact .inl rfl

end Separate

/-! ## Reachable configurations -/

open Separate

namespace Config

/-- Windows nest like brackets. -/
theorem shifts_of_reachable {c c' : Config ν} (h : c.Reachable) (hstep : c.step = .more c') :
    Shifts c.bases c'.bases := by
  obtain ⟨own, rfl, -⟩ := exists_onto_of_reachable RunProperty.anything_kept h
  have hshifts := own.shifts_step (Outside.nothing : Outside ν).toGround
  rw [step_onto] at hstep
  cases hown : own.step Outside.nothing.toGround with
  | more own' =>
    rw [hown] at hstep hshifts
    cases hstep
    exact hshifts
  | ended s result =>
    cases result
    rw [hown] at hstep
    cases hstep

theorem Reachable.after {c d : Config ν} (h : c.Reachable) {n : Nat}
    (hn : (Progress.more c).after n = .more d) : d.Reachable :=
  Reaches.induction ⟨n, hn⟩ h fun _ _ h hstep ↦ h.step hstep

/-- The windows that are open at the start are open, with the same bases, as long as no fewer
are. -/
theorem bases_suffix {c d : Config ν} (h : c.Reachable) {n : Nat}
    (hn : (Progress.more c).after n = .more d)
    (hopen : ∀ m ≤ n, ∀ e, (Progress.more c).after m = .more e →
      c.calls.length ≤ e.calls.length) : c.bases <:+ d.bases := by
  induction n generalizing d with
  | zero =>
    cases hn
    exact List.suffix_refl _
  | succ n ih =>
    rw [Progress.after_add] at hn
    cases he : (Progress.more c).after n with
    | halted status w => simp [he] at hn
    | more e =>
      rw [he, Progress.after_more_succ, Progress.after_zero] at hn
      have hsuffix : c.bases <:+ e.bases := ih he fun m hm ↦ hopen m (Nat.le_succ_of_le hm)
      obtain hsame | ⟨base, hopens⟩ | ⟨base, hcloses⟩ := shifts_of_reachable (h.after he) hn
      · rwa [hsame]
      · rw [hopens]
        exact hsuffix.trans (List.suffix_cons _ _)
      · -- The window that is closed is not one of those that were open at the start.
        rw [hcloses] at hsuffix
        refine (List.suffix_cons_iff.mp hsuffix).resolve_left fun heq ↦ ?_
        have hlength := congrArg List.length heq
        have hle := hopen (n + 1) (Nat.le_refl _) d (by
          rw [Progress.after_add, he, Progress.after_more_succ, Progress.after_zero, hn])
        simp only [length_bases, List.length_cons] at hlength
        omega

end Config

/-- In every state that embedding code can bring about the base and the depth counter are right, no
clamp takes effect, and whenever the windows opened since are closed again, the base is the one that
was current when they were opened. -/
theorem windows_and_depth_are_disciplined {c : Config ν} (hreach : c.Reachable) :
    c.Disciplined ∧ c.Unclamped ∧
      ∀ n d, (Progress.more c).after n = .more d →
        (∀ m ≤ n, ∀ e, (Progress.more c).after m = .more e → c.calls.length ≤ e.calls.length) →
        d.calls.length = c.calls.length → d.bases = c.bases := by
  have hplaced := exists_onto_of_reachable RunProperty.anything_kept hreach
  refine ⟨?_, ?_, fun n d hn hopen hclosed ↦ ?_⟩
  · obtain ⟨own, rfl, -⟩ := hplaced
    exact own.disciplined_onto
  · obtain ⟨own, rfl, -⟩ := hplaced
    exact own.unclamped_onto
  · have hsuffix := Config.bases_suffix hreach hn hopen
    refine (hsuffix.eq_of_length ?_).symm
    rw [Config.length_bases, Config.length_bases, hclosed]

/-! ## Inside a host function -/

namespace Looking

/-- A host function that looks at its arguments only. -/
def look : HostFunction Empty :=
  ⟨1, .ask .height fun _ ↦ .done .ok⟩

def hosts : HostRegistry Empty :=
  HostRegistry.register {} "look" look

/-- The embedding program once it has registered `look` and pushed two values. -/
def calling : Config Empty :=
  ⟨⟨{ stack := ⟨#[.bool true, .null], 0⟩, hosts }, {}, #[.logged (.registered "look" 1 false)]⟩,
    .host (.call "look" 1 fun _ ↦ .done .ok), []⟩

/-- The machine while `look` executes on the upper one of the two values. -/
def looking : Config Empty :=
  ⟨⟨{ stack := ⟨#[.bool true, .null], 1⟩, hosts, depth := 1 }, {},
      #[.logged (.registered "look" 1 false), .logged (.hostCalled "look" 1)]⟩,
    .host look.body, [⟨"look", 0, .program fun _ ↦ .done .ok⟩]⟩

theorem reachable_calling : calling.Reachable := by
  let program : HostProgram Empty := .register "look" 1 look.body fun _ ↦
    .act (.push (.bool true)) fun _ ↦ .act (.push .null) fun _ ↦
      .call "look" 1 fun _ ↦ .done .ok
  have hstart : Config.Reachable (.start ⟨{}, {}, #[]⟩ program) := .fresh {} {} #[] program
  have hregistered : Config.Reachable ⟨⟨{ hosts }, {}, #[.logged (.registered "look" 1 false)]⟩,
      .host (.act (.push (.bool true)) fun _ ↦ .act (.push .null) fun _ ↦
        .call "look" 1 fun _ ↦ .done .ok), []⟩ := by
    refine hstart.step ?_
    simp [Config.start, Config.step, Config.hostStep, World.register, World.log,
      HostRegistry.contains, program, hosts, look]
  exact .step (.step hregistered rfl) rfl

theorem step_calling : calling.step = .more looking := by
  have hget : hosts.get? "look" = some look := by
    simp [hosts, HostRegistry.get?, HostRegistry.register]
  have hdispatch : calling.world.machine.dispatch "look" 1 = .ok (.host look) := by
    simp [Machine.dispatch, calling, Stack.height, hget, look]
  change Progress.more (Config.call calling.world [] "look" 1 fun _ ↦ .done .ok) = _
  rw [Config.call, hdispatch]
  rfl

/-- The embedding program once `look` is done. -/
def returned : Config Empty :=
  ⟨⟨{ stack := ⟨#[.bool true, .null], 0⟩, hosts }, {}, looking.world.journal⟩,
    .host (.done .ok), []⟩

theorem after_calling : (Progress.more calling).after 3 = .more returned := by
  rw [Progress.after_more_succ, step_calling]
  rfl

end Looking

theorem windows_and_depth_are_disciplined_looking :
    Looking.looking.Reachable ∧ Looking.looking.bases = [1, 0] ∧
      Looking.looking.Disciplined ∧ Looking.looking.Unclamped ∧
      (Progress.more Looking.calling).after 3 = .more Looking.returned ∧
      Looking.returned.bases = Looking.calling.bases := by
  have hlooking := Looking.reachable_calling.step Looking.step_calling
  obtain ⟨hdisciplined, hunclamped, -⟩ := windows_and_depth_are_disciplined hlooking
  obtain ⟨-, -, hbases⟩ := windows_and_depth_are_disciplined Looking.reachable_calling
  exact ⟨hlooking, rfl, hdisciplined, hunclamped, Looking.after_calling,
    hbases 3 Looking.returned Looking.after_calling (fun _ _ _ _ ↦ Nat.zero_le _) rfl⟩

end Bytecode
