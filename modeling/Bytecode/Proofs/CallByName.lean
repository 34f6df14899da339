import Bytecode.Proofs.Discipline
import Bytecode.Proofs.LoadGate
import Bytecode.Proofs.Separate.Graft
import Bytecode.Proofs.Separate.Journal

/-!
# Calling by index and calling by name

A call instruction names a function of its chunk by an index and puts a frame for it on the run that
executes. Host code names the same function by its name and starts a run of its own. Made in the
same state, the two do the same: what one leaves on the stack, in the globals, in the error state
and everywhere else, the other leaves there too, and if one does not return, neither does the other.

The callee is one machine in both cases. A call by name places it on the stack as it is, a call
instruction grafts it onto the frames of the run first. Two things tell the calls apart. A call by
name is noted in the journal, before anything else; and a frame that is refused is a trap of the
function for one and of the calling instruction for the other.

## When an instruction comes back

A call instruction has no continuation of its own that could be watched for. The machine *comes
back* where, for the first time, no more frames and windows are live than there were before.
-/

namespace Bytecode

variable {ν : Type}

/-! ## Coming back -/

namespace Config

/-- From `c` on, `e` is the first configuration with no more live frames and windows than `c`. -/
def ComesBack (c e : Config ν) : Prop :=
  ∃ n, (Progress.more c).after (n + 1) = .more e ∧ e.live ≤ c.live ∧
    ∀ m < n, ∀ d, (Progress.more c).after (m + 1) = .more d → c.live < d.live

theorem ComesBack.of_step {c e : Config ν} (h : c.step = .more e) (hle : e.live ≤ c.live) :
    c.ComesBack e :=
  ⟨0, by rw [Progress.after_more_succ, h, Progress.after_zero], hle,
    fun m hm ↦ absurd hm (Nat.not_lt_zero m)⟩

theorem ComesBack.unique {c e e' : Config ν} (h : c.ComesBack e) (h' : c.ComesBack e') :
    e = e' := by
  obtain ⟨n, hn, hlive, hfirst⟩ := h
  obtain ⟨n', hn', hlive', hfirst'⟩ := h'
  rcases Nat.lt_trichotomy n n' with hlt | rfl | hlt
  · have := hfirst' n hlt e hn
    omega
  · rw [hn] at hn'
    cases hn'
    rfl
  · have := hfirst n' hlt e' hn'
    omega

end Config

namespace Separate

variable {b : Awaited}

/-! ## Depths -/

/-- The number of live calls, with those on the ground. -/
def Config.depth (ground : Nat) : Config ν b → Nat
  | ⟨_, .host _ _ waiting⟩ => waiting.depth ground
  | ⟨_, .code run waiting⟩ => waiting.depth ground + run.depth

theorem Config.live_onto (own : Config ν b) : (own.onto .nothing).live = own.depth 0 := by
  rw [← own.disciplined_onto.depth_eq]
  obtain ⟨s, control⟩ := own
  cases control <;> rfl

theorem Waiting.le_depth (ground : Nat) {a : Awaited} (waiting : Waiting ν b a) :
    ground ≤ waiting.depth ground := by
  induction waiting with
  | outside => exact Nat.le_refl _
  | program name caller rest ih => exact Nat.le_add_right_of_le ih
  | bytecode name run rest ih => exact Nat.le_add_right_of_le (Nat.le_add_right_of_le ih)
  | entry caller rest ih => exact ih

/-- As long as a bytecode function has not ended, a call is live that was not live before it. -/
theorem Config.lt_depth (ground : Nat) (c : Config ν .code) : ground < c.depth ground := by
  obtain ⟨s, control⟩ := c
  cases control with
  | code run waiting =>
    exact Nat.lt_of_le_of_lt (waiting.le_depth ground) (Nat.lt_add_of_pos_right (Nat.succ_pos _))
  | host window program waiting =>
    cases waiting with
    | program name caller rest => exact Nat.lt_succ_of_le (rest.le_depth ground)
    | bytecode name run rest =>
      exact Nat.lt_succ_of_le (Nat.le_add_right_of_le (rest.le_depth ground))

theorem Config.depth_graft (k : CallSite ν b) (g : Ground) (c : Config ν .code) :
    (c.graft k).depth g.depth = c.depth (k.ground g).depth := by
  obtain ⟨s, control⟩ := c
  cases control with
  | code run waiting =>
    rw [Config.graft, depth, depth, Run.depth_under, ← Nat.add_assoc, waiting.depth_graft]
  | host window program waiting =>
    have hdepth := waiting.depth_graft k g
    rwa [Waiting.framesBelow_host] at hdepth

/-! ## The end of a callee -/

namespace Progress

variable {g : Ground}

theorem exists_more_of_le {p : Progress ν b} {m n : Nat} {d : Config ν b} (hle : m ≤ n)
    (h : p.after g n = .more d) : ∃ d', p.after g m = .more d' := by
  induction n generalizing p m with
  | zero =>
    rw [Nat.le_zero.mp hle]
    exact ⟨d, h⟩
  | succ n ih =>
    cases p with
    | ended s result => cases h
    | more c =>
      cases m with
      | zero => exact ⟨c, rfl⟩
      | succ m => exact ih (p := c.step g) (Nat.le_of_succ_le_succ hle) h

/-- What ends has a last step. -/
theorem exists_last_step {c : Config ν b} {s : Shared ν} {result : Result b}
    (h : (more c).Ends g s result) :
    ∃ n d, (more c).after g n = .more d ∧ d.step g = .ended s result := by
  obtain ⟨n, hn⟩ := h
  induction n generalizing c with
  | zero => cases hn
  | succ n ih =>
    rw [after_more_succ] at hn
    cases hstep : c.step g with
    | ended s' result' =>
      rw [hstep, after_ended] at hn
      exact ⟨0, c, rfl, by rw [hstep, hn]⟩
    | more c' =>
      rw [hstep] at hn
      obtain ⟨n', d, hd, hlast⟩ := ih hn
      exact ⟨n' + 1, d, by rw [after_more_succ, hstep, hd], hlast⟩

end Progress

/-! ## A machine inside of another -/

section Inside

variable {g : Ground} {c e : Bytecode.Config ν} {inner : Config ν b}
  {place : Config ν b → Bytecode.Config ν}
  -- As long as the inner machine goes on, calls are live that `c` does not have.
  (hafter : ∀ {n d}, (Progress.more inner).after g n = .more d →
    (Bytecode.Progress.more c).after (n + 1) = .more (place d) ∧ c.live < (place d).live)

include hafter

theorem comesBack_of_last_step {n : Nat} {d : Config ν b}
    (hn : (Progress.more inner).after g n = .more d) (hlast : (place d).step = .more e)
    (hle : e.live ≤ c.live) : c.ComesBack e := by
  refine ⟨n + 1, ?_, hle, fun m hm d' hd' ↦ ?_⟩
  · rw [Bytecode.Progress.after_add, (hafter hn).1, Bytecode.Progress.after_more_succ,
      Bytecode.Progress.after_zero, hlast]
  · obtain ⟨own, hown⟩ := Progress.exists_more_of_le (Nat.le_of_lt_succ hm) hn
    obtain ⟨hd, hlt⟩ := hafter hown
    rw [hd] at hd'
    cases hd'
    exact hlt

theorem exists_ends_of_comesBack (h : c.ComesBack e) :
    ∃ s result, (Progress.more inner).Ends g s result := by
  obtain ⟨n, hn, hle, -⟩ := h
  refine (Progress.ends_or_forever _ _).resolve_right fun hforever ↦ ?_
  obtain ⟨d, hd⟩ := hforever n
  obtain ⟨hmore, hlt⟩ := hafter hd
  rw [hmore] at hn
  cases hn
  omega

end Inside

/-- What is outside of the callee if nothing is outside of the site. -/
def CallSite.soleGround (k : CallSite ν .host) : Ground :=
  k.ground (Outside.nothing : Outside ν).toGround

section Callee

variable {k : CallSite ν .host} {c e : Bytecode.Config ν} {inner : Config ν .code}
  {s : Shared ν} {result : Result .code}

/-- When the callee has ended, no call is live that was not live before it. -/
theorem live_le_of_ended (h : ((Progress.ended s result).graft k).onto .nothing = .more e) :
    e.live ≤ k.soleGround.depth := by
  obtain ⟨chunk, caller, outer, waiting⟩ := k
  cases waiting with
  | entry suspended rest =>
    match result with
    | .code (.ok value) =>
      cases h
      exact Nat.le_of_eq (Config.live_onto _)
    | .code (.error trap) =>
      cases h
      exact Nat.le_trans (Nat.le_of_eq (Config.live_onto _)) (Nat.le_add_right _ _)

variable (hfits : inner.Fits k) (hstep : c.step = .more ((inner.graft k).onto .nothing))
  (hlive : c.live = k.soleGround.depth)

include hfits hstep hlive

/-- Until the callee has ended, the machine does not come back. -/
theorem after_call_of_more {n : Nat} {d : Config ν .code}
    (h : (Progress.more inner).after k.soleGround n = .more d) :
    (Bytecode.Progress.more c).after (n + 1) = .more ((d.graft k).onto .nothing) ∧
      c.live < ((d.graft k).onto .nothing).live := by
  obtain ⟨hgraft, -⟩ := @after_graft_of_more _ _ k _ (.more inner) n d hfits h
  constructor
  · rw [Bytecode.Progress.after_more_succ, hstep]
    exact after_onto_of_more .nothing hgraft
  · rw [hlive, Config.live_onto]
    exact Nat.lt_of_lt_of_eq (Config.lt_depth _ d) (Config.depth_graft k _ d).symm

theorem comesBack_of_ends
    (hends : (Progress.more inner).Ends k.soleGround s result)
    (he : ((Progress.ended s result).graft k).onto .nothing = .more e) : c.ComesBack e := by
  obtain ⟨n, d, hn, hlast⟩ := Progress.exists_last_step hends
  obtain ⟨-, hd⟩ := @after_graft_of_more _ _ k _ (.more inner) n d hfits hn
  have hgraft : (d.graft k).step (Outside.nothing : Outside ν).toGround
      = (d.step k.soleGround).graft k := step_graft k _ hd
  refine comesBack_of_last_step (after_call_of_more hfits hstep hlive) hn ?_ ?_
  · rw [step_onto, hgraft, hlast, he]
  · rw [hlive]
    exact live_le_of_ended he

end Callee

/-! ## A call instruction -/

/-- The run once it has given away the arguments of a call. -/
def Run.site (run : Run) (arity : Nat) (waiting : Waiting ν b .code) : CallSite ν b :=
  ⟨run.chunk, ((run.dropOperands arity).goto (run.frame.pc + 1)).frame, run.outer, waiting⟩

theorem ground_site (run : Run) (arity : Nat) (waiting : Waiting ν b .code) (g : Ground) :
    (run.site arity waiting).ground g
      = ⟨waiting.values g.values ++ (run.dropOperands arity).values,
          waiting.depth g.depth + run.depth⟩ := rfl

@[simp] theorem Shared.limits_log (s : Shared ν) (entry : LogEntry) :
    (s.log entry).limits = s.limits := rfl

theorem enter_outside (g : Ground) (s : Shared ν) (chunk : Chunk) (index : Nat)
    (arguments : List Value) :
    Config.enter g s chunk index arguments .outside
      = match Frame.enter s.limits chunk index g.values.length g.depth arguments with
        | .ok frame => .more ⟨s, .code ⟨chunk, frame, []⟩ .outside⟩
        | .error kind =>
          .ended s (.code (.error ⟨kind, chunk.functionName index, 0⟩)) := rfl

/-- A call instruction enters the callee as a call by name does, and grafts it onto the run. -/
theorem step_call (g : Ground) (s : Shared ν) {run : Run} (waiting : Waiting ν b .code)
    {i : Instruction} {arity : Nat}
    (hi : run.chunk.instruction? run.frame.function run.frame.pc = some i) (hop : i.opcode = .call)
    (harity : run.chunk.functionArity i.arg1.toNat = arity)
    (hoperands : arity ≤ run.frame.operands.length) :
    Config.step g ⟨s, .code run waiting⟩
      = match Frame.enter s.limits run.chunk i.arg1.toNat
          ((run.site arity waiting).ground g).values.length
          ((run.site arity waiting).ground g).depth (run.topOperands arity) with
        | .ok frame =>
          .more (Config.graft (run.site arity waiting) ⟨s, .code ⟨run.chunk, frame, []⟩ .outside⟩)
        | .error kind => .ofTurn s waiting (run.trap kind) := by
  have hexec : run.frame.exec run.chunk s.limits.stackDepth ((waiting.values g.values).length
      + (stacked run.outer).length + run.frame.locals.length) s.globals i
        = .ok (.call i.arg1.toNat, run.frame, s.globals) := by
    simp only [Frame.exec, hop]
    rfl
  rw [Config.step, Run.turn, hi]
  simp only [hexec, Run.callTurn, harity, if_neg (Nat.not_lt.mpr hoperands), ground_site,
    Run.values_goto, List.length_append]
  cases Frame.enter s.limits run.chunk i.arg1.toNat
    ((waiting.values g.values).length + (run.dropOperands arity).values.length)
    (waiting.depth g.depth + run.depth) (run.topOperands arity) <;> rfl

/-- The run takes the result and goes on after the call. -/
theorem ended_ok_onto (o : Outside ν) (s : Shared ν) (run : Run) (arity : Nat)
    (waiting : Waiting ν b .code) (value : Value) :
    ((Progress.ended s (.code (.ok value))).graft (run.site arity waiting)).onto o
      = .more ⟨s.world ⟨(waiting.values o.values ++ (run.dropOperands arity).values
            ++ [value]).toArray, waiting.base o⟩ (waiting.depth o.depth + run.depth),
          .code ((run.above o waiting).goto (run.frame.pc + 1)), waiting.calls o⟩ := by
  have hvalues : ((run.site arity waiting).receive value).values
      = (run.dropOperands arity).values ++ [value] := by
    simp [CallSite.receive, Run.site, Run.values, Frame.values, Run.goto, Run.dropOperands]
  simp only [Progress.graft, Progress.onto, Config.onto, Shared.codeWorld, hvalues,
    List.append_assoc]
  rfl

end Separate

open Separate

/-! ## Both calls -/

/-- How a call by name and a call instruction end that are made in the same state: together or not
at all. `entered` is the frame that the callee gets, or why it gets none. -/
inductive CallsAgree (w : World ν) (run : CodeRun ν) (calls : List (HostCall ν)) (name : String)
    (arguments : Nat) (entered : Except TrapKind Frame) : Prop where
  | returned (value : Value) (machine : Machine ν) (files : Files) (events : Array (Event ν))
    (hvalues : machine.stack.values.toList
      = w.machine.stack.values.toList.take (w.machine.stack.size - arguments) ++ [value])
    (hname : w.CallReturns name arguments (.ok ())
      ⟨machine, files, w.journal.push (.logged (.codeCalled name arguments)) ++ events⟩)
    (hindex : Config.ComesBack ⟨w, .code run, calls⟩
      ⟨⟨machine, files, w.journal ++ events⟩, .code (run.goto (run.frame.pc + 1)), calls⟩)
  | trapped (trap atCaller : Trap) (w' w'' : World ν)
    (hkind : atCaller.kind = trap.kind)
    (hentered : ∀ frame, entered = .ok frame → atCaller = trap)
    (hrefused : ∀ kind, entered = .error kind → atCaller = run.trap kind)
    (hname : w.CallReturns name arguments (.error (.trapped trap)) w')
    (hindex : Config.ComesBack ⟨w, .code run, calls⟩
      ⟨w'', .host (run.resume (.error (.trapped atCaller))), calls⟩)
  | neither (hname : ∀ reply w', ¬w.CallReturns name arguments reply w')
    (hindex : ∀ e, ¬Config.ComesBack ⟨w, .code run, calls⟩ e)

namespace CallsAgree

variable {w w' w'' : World ν} {run : CodeRun ν} {calls : List (HostCall ν)} {name : String}
  {arguments : Nat} {entered : Except TrapKind Frame}
  (h : CallsAgree w run calls name arguments entered)

include h

/-- One call returns with a certain machine if and only if the other comes back with it. -/
theorem returns_iff (post : Machine ν → Prop) :
    (∃ w', w.CallReturns name arguments (.ok ()) w' ∧ post w'.machine) ↔
      ∃ w', Config.ComesBack ⟨w, .code run, calls⟩
          ⟨w', .code (run.goto (run.frame.pc + 1)), calls⟩ ∧ post w'.machine := by
  constructor
  · rintro ⟨w', hreturn, hpost⟩
    cases h with
    | returned value machine files events hvalues hname hindex =>
      obtain ⟨-, rfl⟩ := hreturn.unique hname
      exact ⟨_, hindex, hpost⟩
    | trapped trap atCaller w₁ w₂ hkind hentered hrefused hname hindex =>
      cases (hreturn.unique hname).1
    | neither hname hindex => exact absurd hreturn (hname _ _)
  · rintro ⟨w'', hback, hpost⟩
    cases h with
    | returned value machine files events hvalues hname hindex =>
      cases hback.unique hindex
      exact ⟨_, hname, hpost⟩
    | trapped trap atCaller w₁ w₂ hkind hentered hrefused hname hindex =>
      have hcontrol : Control.code _ = _ := congrArg Config.control (hback.unique hindex)
      cases hcontrol
    | neither hname hindex => exact absurd hback (hindex _)

/-- Two calls that succeed leave the same behind, but for the note that one was made by name. -/
theorem same_world (hreturn : w.CallReturns name arguments (.ok ()) w')
    (hback : Config.ComesBack ⟨w, .code run, calls⟩
      ⟨w'', .code (run.goto (run.frame.pc + 1)), calls⟩) :
    w''.machine = w'.machine ∧ w''.files = w'.files ∧
      (∃ value, w'.machine.stack.values.toList
        = w.machine.stack.values.toList.take (w.machine.stack.size - arguments) ++ [value]) ∧
      ∃ events, w'.journal = w.journal.push (.logged (.codeCalled name arguments)) ++ events ∧
        w''.journal = w.journal ++ events := by
  cases h with
  | returned value machine files events hvalues hname hindex =>
    obtain ⟨-, rfl⟩ := hreturn.unique hname
    cases hback.unique hindex
    exact ⟨rfl, rfl, ⟨value, hvalues⟩, events, rfl, rfl⟩
  | trapped trap atCaller w₁ w₂ hkind hentered hrefused hname hindex =>
    cases (hreturn.unique hname).1
  | neither hname hindex => exact absurd hreturn (hname _ _)

theorem traps {trap : Trap} (hreturn : w.CallReturns name arguments (.error (.trapped trap)) w') :
    ∃ atCaller w'', Config.ComesBack ⟨w, .code run, calls⟩
        ⟨w'', .host (run.resume (.error (.trapped atCaller))), calls⟩ ∧
      atCaller.kind = trap.kind ∧ (∀ frame, entered = .ok frame → atCaller = trap) ∧
      ∀ kind, entered = .error kind → atCaller = run.trap kind := by
  cases h with
  | returned value machine files events hvalues hname hindex =>
    cases (hreturn.unique hname).1
  | trapped trap atCaller w₁ w₂ hkind hentered hrefused hname hindex =>
    cases (hreturn.unique hname).1
    exact ⟨atCaller, w₂, hindex, hkind, hentered, hrefused⟩
  | neither hname hindex => exact absurd hreturn (hname _ _)

end CallsAgree

section Call

variable {s : Shared ν} {run : Run} {waiting : Waiting ν .host .code} {i : Instruction}
  {name : String} {arity : Nat}

/-- The arguments of the call, on top of what the callee stands on. -/
theorem codeWorld_split (s : Shared ν) (run : Run) (waiting : Waiting ν .host .code) (arity : Nat) :
    s.codeWorld .nothing run waiting
      = s.world ⟨((run.site arity waiting).soleGround.values ++ run.topOperands arity).toArray,
          waiting.base .nothing⟩ (run.site arity waiting).soleGround.depth := by
  rw [Shared.codeWorld, values_split .nothing run waiting arity]
  rfl

theorem live_onto_call (s : Shared ν) (run : Run) (waiting : Waiting ν .host .code) (arity : Nat) :
    (Separate.Config.onto .nothing ⟨s, .code run waiting⟩).live
      = (run.site arity waiting).soleGround.depth :=
  Separate.Config.live_onto _

theorem base_le_soleGround (run : Run) (waiting : Waiting ν .host .code) (arity : Nat) :
    waiting.base .nothing ≤ (run.site arity waiting).soleGround.values.length := by
  rw [CallSite.soleGround, CallSite.ground, List.length_append]
  exact Nat.le_add_right_of_le (waiting.base_le .nothing)

theorem size_codeWorld_sub (hoperands : arity ≤ run.frame.operands.length) :
    (s.codeWorld .nothing run waiting).machine.stack.size - arity
      = (run.site arity waiting).soleGround.values.length := by
  rw [codeWorld_split s run waiting arity, Shared.stack_world, Stack.size_mk, List.length_append,
    Run.length_topOperands hoperands, Nat.add_sub_cancel]

theorem take_values_codeWorld (hoperands : arity ≤ run.frame.operands.length) :
    (s.codeWorld .nothing run waiting).machine.stack.values.toList.take
        ((s.codeWorld .nothing run waiting).machine.stack.size - arity)
      = (run.site arity waiting).soleGround.values := by
  rw [size_codeWorld_sub hoperands, codeWorld_split s run waiting arity, Shared.stack_world,
    List.take_left]

variable (hi : run.chunk.instruction? run.frame.function run.frame.pc = some i)
  (hop : i.opcode = .call) (harity : run.chunk.functionArity i.arg1.toNat = arity)
  (hoperands : arity ≤ run.frame.operands.length)
  (hdispatch : (s.codeWorld .nothing run waiting).machine.dispatch name arity
    = .ok (.code run.chunk i.arg1.toNat))

include hoperands hdispatch in
theorem callByName_iff {reply : Reply} {w : World ν} :
    (s.codeWorld .nothing run waiting).CallReturns name arity reply w ↔
      ∃ s' outcome, (Separate.Config.enter (run.site arity waiting).soleGround
          (s.log (.codeCalled name arity)) run.chunk i.arg1.toNat (run.topOperands arity)
          .outside).Ends (run.site arity waiting).soleGround s' (.code outcome) ∧
        reply = outcome.reply ∧
        w = s'.afterCode (run.site arity waiting).soleGround.values (waiting.base .nothing)
          (run.site arity waiting).soleGround.depth outcome := by
  have hbase := base_le_soleGround run waiting arity
  have hlength := Run.length_topOperands hoperands
  rw [codeWorld_split s run waiting arity] at hdispatch ⊢
  generalize run.topOperands arity = passed at hlength hdispatch ⊢
  subst hlength
  exact callReturns_code_iff hbase hdispatch

include hi hop harity hoperands in
theorem step_onto_call :
    (Separate.Config.onto .nothing ⟨s, .code run waiting⟩).step
      = match Separate.Frame.enter s.limits run.chunk i.arg1.toNat
          (run.site arity waiting).soleGround.values.length
          (run.site arity waiting).soleGround.depth (run.topOperands arity) with
        | .ok frame => .more ((Separate.Config.graft (run.site arity waiting)
            ⟨s, .code ⟨run.chunk, frame, []⟩ .outside⟩).onto .nothing)
        | .error kind => (Separate.Progress.finish s
            (.error ((run.above .nothing waiting).trap kind)) waiting).onto .nothing := by
  rw [step_onto, step_call _ s waiting hi hop harity hoperands]
  change Separate.Progress.onto _ (match Separate.Frame.enter s.limits run.chunk i.arg1.toNat
    (run.site arity waiting).soleGround.values.length (run.site arity waiting).soleGround.depth
    (run.topOperands arity) with | .ok frame => _ | .error kind => _) = _
  cases Separate.Frame.enter s.limits run.chunk i.arg1.toNat
    (run.site arity waiting).soleGround.values.length (run.site arity waiting).soleGround.depth
    (run.topOperands arity) <;> rfl

include hi hop harity hoperands hdispatch

/-- A callee that gets its frame ends for both calls, with the same outcome, or for neither. -/
theorem callsAgree_of_entered {frame : Separate.Frame}
    (henter : Separate.Frame.enter s.limits run.chunk i.arg1.toNat
      (run.site arity waiting).soleGround.values.length (run.site arity waiting).soleGround.depth
      (run.topOperands arity) = .ok frame) (entered : Frame) :
    CallsAgree (s.codeWorld .nothing run waiting) (run.above .nothing waiting)
      (waiting.calls .nothing) name arity (.ok entered) := by
  let k := run.site arity waiting
  -- The callee is the same machine for both calls, with another past.
  let callee (s : Shared ν) : Separate.Config ν .code := ⟨s, .code ⟨run.chunk, frame, []⟩ .outside⟩
  have hname {reply : Reply} {w : World ν} := @callByName_iff _ s run waiting i name arity
    hoperands hdispatch reply w
  rw [enter_outside, Shared.limits_log, henter] at hname
  have hstep := @step_onto_call _ s run waiting i arity hi hop harity hoperands
  rw [henter] at hstep
  have hfits : (callee s).Fits k := ⟨rfl, trivial⟩
  have hlive := live_onto_call s run waiting arity
  by_cases hends : ∃ s' result, (Separate.Progress.more (callee s)).Ends k.soleGround s' result
  · obtain ⟨s', result, hends⟩ := hends
    obtain ⟨s₀, rfl, hlogged⟩ := exists_ends_of_ends (fun s ↦ .more (callee s)) (fun _ _ ↦ rfl)
      hends (s.log (.codeCalled name arity)).journal
    match result with
    | .code (.ok value) =>
      have hreturn := hname.mpr ⟨_, _, hlogged, rfl, rfl⟩
      have hback := comesBack_of_ends hfits hstep hlive hends
        (ended_ok_onto .nothing _ run arity waiting value)
      refine .returned value _ _ s₀.journal ?_ hreturn hback
      rw [take_values_codeWorld hoperands]
    | .code (.error trap) =>
      have hreturn := hname.mpr ⟨_, _, hlogged, rfl, rfl⟩
      have hback := comesBack_of_ends hfits hstep hlive hends
        (finish_error_onto .nothing _ trap waiting)
      refine .trapped trap trap _ _ rfl (fun _ _ ↦ rfl) (fun kind hkind ↦ ?_) hreturn hback
      cases hkind
  · refine .neither (fun reply w' hreturn ↦ hends ?_) fun e hback ↦ hends ?_
    · obtain ⟨s', outcome, hlogged, -⟩ := hname.mp hreturn
      obtain ⟨s₀, -, hends⟩ := exists_ends_of_ends (fun s ↦ .more (callee s)) (fun _ _ ↦ rfl)
        hlogged s.journal
      exact ⟨_, _, hends⟩
    · exact exists_ends_of_comesBack (after_call_of_more hfits hstep hlive) hback

/-- A callee that gets no frame is a trap in its first instruction for a call by name and in the
call instruction for the run. -/
theorem callsAgree_of_refused {kind : TrapKind}
    (henter : Separate.Frame.enter s.limits run.chunk i.arg1.toNat
      (run.site arity waiting).soleGround.values.length (run.site arity waiting).soleGround.depth
      (run.topOperands arity) = .error kind) :
    CallsAgree (s.codeWorld .nothing run waiting) (run.above .nothing waiting)
      (waiting.calls .nothing) name arity (.error kind) := by
  let refused : Trap := ⟨kind, run.chunk.functionName i.arg1.toNat, 0⟩
  let atCaller := (run.above .nothing waiting).trap kind
  have hname {reply : Reply} {w : World ν} := @callByName_iff _ s run waiting i name arity
    hoperands hdispatch reply w
  rw [enter_outside, Shared.limits_log, henter] at hname
  have hreturn := hname.mpr ⟨_, .error refused, ⟨0, rfl⟩, rfl, rfl⟩
  have hfinish := finish_error_onto .nothing s atCaller waiting
  have hstep := @step_onto_call _ s run waiting i arity hi hop harity hoperands
  rw [henter] at hstep
  have hlive := @live_le_of_ended _ (run.site arity waiting) _ s (.code (.error atCaller)) hfinish
  refine .trapped refused atCaller _ _ rfl (fun frame hframe ↦ ?_) (fun kind' hkind ↦ ?_) hreturn
    (.of_step (hstep.trans hfinish) ?_)
  · cases hframe
  · cases hkind
    rfl
  · exact Nat.le_trans hlive (Nat.le_of_eq (live_onto_call s run waiting arity).symm)

theorem callsAgree :
    CallsAgree (s.codeWorld .nothing run waiting) (run.above .nothing waiting)
      (waiting.calls .nothing) name arity
      ((s.codeWorld .nothing run waiting).machine.enterFrame run.chunk i.arg1.toNat
        ((s.codeWorld .nothing run waiting).machine.stack.size - arity)).1 := by
  have hplaced := enterFrame_placed s (run.site arity waiting).soleGround.values
    (run.topOperands arity) (waiting.base .nothing) (run.site arity waiting).soleGround.depth
    run.chunk i.arg1.toNat
  have hsize := @size_codeWorld_sub _ s run waiting arity hoperands
  rw [← codeWorld_split, ← hsize] at hplaced
  rw [hplaced, hsize]
  split
  · rename_i henter
    exact callsAgree_of_entered hi hop harity hoperands hdispatch henter _
  · rename_i henter
    exact callsAgree_of_refused hi hop harity hoperands hdispatch henter

end Call

theorem callsAgree_of_reachable {w : World ν} {run : CodeRun ν} {calls : List (HostCall ν)}
    {i : Instruction} {f : FunctionDef} (hreach : Config.Reachable ⟨w, .code run, calls⟩)
    (hloaded : w.machine.chunk = some run.chunk)
    (hi : run.chunk.instruction? run.frame.function run.frame.pc = some i)
    (hop : i.opcode = .call) (hf : run.chunk.functions[i.arg1.toNat]? = some f)
    (hshadow : w.machine.hosts.get? f.name = none) :
    CallsAgree w run calls f.name f.arity.toNat (w.machine.enterFrame run.chunk i.arg1.toNat
      (w.machine.stack.size - f.arity.toNat)).1 := by
  obtain ⟨⟨s, control⟩, hown, -, hcontrol⟩ := exists_onto_of_reachable wellPlaced_kept hreach
  cases control with
  | host window program waiting => cases hown
  | code run waiting =>
    cases hown
    obtain ⟨⟨hverified, hat, -⟩, -⟩ := hcontrol
    obtain ⟨function, i', hlocated⟩ := exists_located hverified hat
    cases hlocated.instruction?_eq.symm.trans hi
    -- The verifier has seen to it that the frame has the arguments.
    have hoperands : f.arity.toNat ≤ run.frame.operands.length := by
      obtain ⟨callee, hcallee, harity⟩ : ∃ callee,
          run.chunk.functions[i.arg1.toNat]? = some callee ∧ callee.arity = i.arg2 := by
        have hresolves := hlocated.resolves
        rwa [Instruction.Resolves, hop] at hresolves
      cases hcallee.symm.trans hf
      have hpops := hlocated.fits.1
      rwa [Instruction.effect, hop, ← harity] at hpops
    have hheight : f.arity.toNat ≤ (s.codeWorld .nothing run waiting).machine.stack.height := by
      have hbase := base_le_soleGround run waiting f.arity.toNat
      have hlength := Run.length_topOperands hoperands
      rw [codeWorld_split s run waiting f.arity.toNat, Shared.stack_world, Stack.height]
      simp only [List.size_toArray, List.length_append]
      omega
    exact callsAgree hi hop (functionArity_eq hf) hoperands
      (dispatch_of_loaded hverified hloaded hf hshadow hheight)

/-- A call instruction does what a call by name does that is made in the same state. If that returns
a value, the run goes on after the call with the value on the stack, and the two machines are the
same; if that traps, so does the run. -/
theorem call_instruction_agrees_with_call_by_name {w : World ν} {run : CodeRun ν}
    {calls : List (HostCall ν)} {i : Instruction} {f : FunctionDef}
    (hreach : Config.Reachable ⟨w, .code run, calls⟩)
    (hloaded : w.machine.chunk = some run.chunk)
    (hi : run.chunk.instruction? run.frame.function run.frame.pc = some i)
    (hop : i.opcode = .call) (hf : run.chunk.functions[i.arg1.toNat]? = some f)
    (hshadow : w.machine.hosts.get? f.name = none) :
    let arity := f.arity.toNat
    let c : Config ν := ⟨w, .code run, calls⟩
    let next : Control ν := .code (run.goto (run.frame.pc + 1))
    let kept := w.machine.stack.values.toList.take (w.machine.stack.size - arity)
    let entered := (w.machine.enterFrame run.chunk i.arg1.toNat (w.machine.stack.size - arity)).1
    (∀ value,
      (∃ w', w.CallReturns f.name arity (.ok ()) w' ∧
        w'.machine.stack.values.toList = kept ++ [value]) ↔
      ∃ w', c.ComesBack ⟨w', next, calls⟩ ∧
        w'.machine.stack.values.toList = kept ++ [value]) ∧
    (∀ w' w'', w.CallReturns f.name arity (.ok ()) w' → c.ComesBack ⟨w'', next, calls⟩ →
      w''.machine = w'.machine ∧ w''.files = w'.files ∧
        (∃ value, w'.machine.stack.values.toList = kept ++ [value]) ∧
        ∃ events, w'.journal = w.journal.push (.logged (.codeCalled f.name arity)) ++ events ∧
          w''.journal = w.journal ++ events) ∧
    ∀ trap w', w.CallReturns f.name arity (.error (.trapped trap)) w' →
      ∃ atCaller w'', c.ComesBack ⟨w'', .host (run.resume (.error (.trapped atCaller))), calls⟩ ∧
        atCaller.kind = trap.kind ∧ (∀ frame, entered = .ok frame → atCaller = trap) ∧
        ∀ kind, entered = .error kind → atCaller = run.trap kind := by
  intro arity c next kept entered
  have hagree := callsAgree_of_reachable hreach hloaded hi hop hf hshadow
  exact ⟨fun value ↦ hagree.returns_iff fun m ↦ m.stack.values.toList = kept ++ [value],
    fun w' w'' ↦ hagree.same_world, fun trap w' ↦ hagree.traps⟩

/-! ## A function that calls itself -/

namespace Flipping

/-- A function that returns false, which it asks itself for if its argument is true. -/
def function : FunctionDef :=
  ⟨"flip", 1, 1, #[{ opcode := .loadLocal }, { opcode := .dup },
    { opcode := .jumpIfFalse, arg1 := 5 }, { opcode := .unary .not },
    { opcode := .call, arg1 := 0, arg2 := 1 }, { opcode := .ret }]⟩

def chunk : Chunk :=
  ⟨#[], #[function]⟩

theorem verified : chunk.Verified :=
  Verify.verified_of_single (by decide) (by decide) (by decide) (by decide) (by decide)

theorem loadable : Loadable chunk.encode chunk :=
  .of_toOption nofun (by decide +kernel) verified

/-- The machine while `flip` executes on true and is about to call itself with false. -/
def world : World Empty :=
  ⟨{ stack := ⟨#[.bool true, .bool false], 0⟩, chunk := some chunk, depth := 1 }, {},
    #[.logged (.loaded 0 1 false), .logged (.codeCalled "flip" 1)]⟩

def run : CodeRun Empty :=
  ⟨chunk, ⟨0, 4, 0, 1⟩, [], 0, 0, fun _ ↦ .done .ok⟩

theorem get?_hosts (name : String) : ({} : HostRegistry Empty).get? name = none := by
  simp [HostRegistry.get?]

theorem reachable : Config.Reachable ⟨world, .code run, []⟩ := by
  let rest : HostProgram Empty := .act (.push (.bool true)) fun _ ↦
    .call "flip" 1 fun _ ↦ .done .ok
  let loaded : Machine Empty := { chunk := some chunk, stack := ⟨#[.bool true], 0⟩ }
  let journal : Array (Event Empty) := #[.logged (.loaded 0 1 false)]
  have hstart : Config.Reachable (.start ⟨{}, {}, #[]⟩ (.act (.load chunk.encode) fun _ ↦ rest)) :=
    .fresh {} {} #[] _
  have hloaded : Config.Reachable ⟨⟨{ chunk := some chunk }, {}, journal⟩, .host rest, []⟩ :=
    hstart.step (step_load loadable _ _ _)
  have hdispatch : loaded.dispatch "flip" 1 = .ok (.code chunk 0) :=
    @dispatch_of_loaded _ loaded chunk 0 function verified rfl rfl (get?_hosts _) (by decide)
  have hpushed : Config.Reachable ⟨⟨loaded, {}, journal⟩,
      .host (.call "flip" 1 fun _ ↦ .done .ok), []⟩ := hloaded.step rfl
  have hcalled : Config.Reachable (Config.callCode ⟨loaded, {}, journal⟩ [] "flip" chunk 0 1
      fun _ ↦ .done .ok) := by
    refine hpushed.step ?_
    simp only [Config.step, Config.hostStep, Config.call, hdispatch]
  exact (((hcalled.step rfl).step rfl).step rfl).step rfl

/-- The machine after a call by name. -/
def worldAfter : World Empty :=
  { world with journal := world.journal.push (.logged (.codeCalled "flip" 1)) }

theorem callReturns : world.CallReturns "flip" 1 (.ok ()) worldAfter := by
  have hdispatch : world.machine.dispatch "flip" 1 = .ok (.code chunk 0) :=
    @dispatch_of_loaded _ world.machine chunk 0 function verified rfl rfl (get?_hosts _) (by decide)
  exact (@callReturns_code_iff Empty (.ofWorld world) [.bool true] [.bool false] 0 1 "flip" (.ok ())
    worldAfter chunk 0 (Nat.zero_le _) hdispatch).mpr ⟨_, .ok (.bool false), ⟨4, rfl⟩, rfl, rfl⟩

end Flipping

theorem call_instruction_agrees_with_call_by_name_flipping :
    Config.Reachable ⟨Flipping.world, .code Flipping.run, []⟩ ∧
      Flipping.world.CallReturns "flip" 1 (.ok ()) Flipping.worldAfter ∧
      ∃ w', Config.ComesBack ⟨Flipping.world, .code Flipping.run, []⟩
          ⟨w', .code (Flipping.run.goto 5), []⟩ ∧
        w'.machine.stack.values.toList = [.bool true] ++ [.bool false] := by
  obtain ⟨hvalue, -⟩ := call_instruction_agrees_with_call_by_name Flipping.reachable rfl
    (show Flipping.chunk.instruction? 0 4 = some { opcode := .call, arg1 := 0, arg2 := 1 } from rfl)
    rfl (show Flipping.chunk.functions[0]? = some Flipping.function from rfl)
    (Flipping.get?_hosts _)
  refine ⟨Flipping.reachable, Flipping.callReturns, ?_⟩
  exact (hvalue (.bool false)).mp ⟨_, Flipping.callReturns, rfl⟩

end Bytecode
