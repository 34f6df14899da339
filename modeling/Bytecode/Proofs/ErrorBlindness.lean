import Bytecode.Proofs.ErrorLog
import Bytecode.Proofs.HostCode
import Bytecode.Proofs.Silence
import Bytecode.Proofs.StepCases

/-!
# The error state is never consulted

Take two machines that differ in their error states and in what was noted so far, and in nothing
else. Erasing these makes them equal, and erasing commutes with a step, so they stay equal up to
what is erased for as long as they run.

Host code that asks for the record of the last failure could tell them apart. So the statement is
about host code that is *blind*: it never lets such an answer decide how it goes on
(`HostProgram.Blind`), and neither do the host functions it registers.

A failure brings the two records together: from then on they too are equal.
-/

namespace Bytecode

open Separate

variable {ν : Type}

/-! ## Blind host code -/

/-- The program never lets the record of the last failure decide how it goes on, and neither do the
host functions that it registers. -/
def HostProgram.Blind : HostProgram ν → Prop
  | .done _ => True
  | .ask query next => (query = .errorRecord → ∀ a b, next a = next b) ∧ ∀ a, (next a).Blind
  | .act _ next => ∀ reply, (next reply).Blind
  | .register _ _ body next => body.Blind ∧ ∀ reply, (next reply).Blind
  | .call _ _ next => ∀ reply, (next reply).Blind
  | .note _ next => next.Blind

def HostRegistry.Blind (hosts : HostRegistry ν) : Prop :=
  ∀ name function, hosts.get? name = some function → function.body.Blind

def CodeRun.Blind (run : CodeRun ν) : Prop :=
  ∀ reply, (run.resume reply).Blind

def Caller.Blind : Caller ν → Prop
  | .program resume => ∀ reply, (resume reply).Blind
  | .code run _ => run.Blind

def Control.Blind : Control ν → Prop
  | .host program => program.Blind
  | .code run => run.Blind

/-- All host code in sight is blind: what executes, what waits, and what is registered. -/
structure Config.Blind (c : Config ν) : Prop where
  control : c.control.Blind
  calls : ∀ call ∈ c.calls, call.caller.Blind
  hosts : c.world.machine.hosts.Blind

theorem HostRegistry.Blind.register {hosts : HostRegistry ν} (h : hosts.Blind) (name : String)
    {function : HostFunction ν} (hbody : function.body.Blind) :
    (hosts.register name function).Blind := by
  intro other found hfound
  rw [HostRegistry.get?, HostRegistry.register, Std.HashMap.getElem?_insert] at hfound
  split at hfound
  · cases hfound
    exact hbody
  · exact h other found hfound

/-- Entering a frame registers nothing. -/
theorem HostRegistry.Blind.of_enterFrame {m m' : Machine ν} {chunk : Chunk} {function base : Nat}
    {entered : Except TrapKind Bytecode.Frame} (h : m.hosts.Blind)
    (henter : m.enterFrame chunk function base = (entered, m')) : m'.hosts.Blind := by
  have hhosts : (m.enterFrame chunk function base).2.hosts = m.hosts := by
    unfold Machine.enterFrame
    split
    · rfl
    split
    · rfl
    dsimp only
    split <;> rfl
  rw [henter] at hhosts
  rw [show m'.hosts = _ from hhosts]
  exact h

namespace Config

section Blind

variable {w : World ν} {run : CodeRun ν} {calls : List (HostCall ν)}
  (hcalls : ∀ call ∈ calls, call.caller.Blind) (hhosts : w.machine.hosts.Blind)

include hcalls hhosts

theorem blind_openCall {function : HostFunction ν} (hbody : function.body.Blind) (name : String)
    (arguments : Nat) {caller : Caller ν} (hcaller : caller.Blind) :
    (openCall w calls name function arguments caller).Blind := by
  refine ⟨hbody, ?_, hhosts⟩
  intro call hcall
  rcases List.mem_cons.mp hcall with rfl | hcall
  · exact hcaller
  · exact hcalls call hcall

theorem blind_trap (hrun : run.Blind) (kind : TrapKind) : (trap w run calls kind).Blind :=
  ⟨hrun _, hcalls, hhosts⟩

theorem blind_hostInstruction (hrun : run.Blind) (i : Instruction) :
    (hostInstruction w run calls i).Blind := by
  rw [hostInstruction]
  rcases htarget : w.machine.hostTarget run.chunk run.frame i with kind | ⟨name, function⟩
  · exact blind_trap hcalls hhosts hrun kind
  · obtain ⟨key, hget⟩ := exists_get?_of_hostTarget htarget
    exact blind_openCall hcalls hhosts (hhosts key function hget) name _ hrun

theorem blind_callInstruction (hrun : run.Blind) (callee : Nat) :
    (callInstruction w run calls callee).Blind := by
  rw [callInstruction]
  dsimp only
  split
  · exact blind_trap hcalls hhosts hrun .stackUnderflow
  · rcases hentered : w.machine.enterFrame run.chunk callee
      (w.machine.stack.size - run.chunk.functionArity callee) with ⟨kind | frame, m⟩
    · have hhosts' : m.hosts.Blind := hhosts.of_enterFrame hentered
      exact ⟨hrun _, hcalls, hhosts'⟩
    · have hhosts' : m.hosts.Blind := hhosts.of_enterFrame hentered
      exact ⟨hrun, hcalls, hhosts'⟩

theorem blind_returnInstruction (hrun : run.Blind) : (returnInstruction w run calls).Blind := by
  rw [returnInstruction]
  rcases w.machine.stack.popAbove run.frame.floor with ⟨_ | value, stack⟩
  · exact ⟨hrun _, hcalls, hhosts⟩
  · rcases run.outer with _ | ⟨frame, outer⟩
    · exact ⟨hrun _, hcalls, hhosts⟩
    · exact ⟨hrun, hcalls, hhosts⟩

theorem blind_codeStep (hrun : run.Blind) : (codeStep w run calls).Blind := by
  rw [codeStep]
  rcases run.chunk.instruction? run.frame.function run.frame.pc with _ | i
  · exact blind_trap hcalls hhosts hrun _
  dsimp only
  rcases i.exec run.chunk w.machine.limits.stackDepth run.frame w.machine.toStore
    with ⟨flow, store⟩ | ⟨kind, store⟩
  · let w' : World ν := { w with machine := { w.machine with toStore := store } }
    have hhosts' : w'.machine.hosts.Blind := hhosts
    cases flow with
    | next | jump => exact ⟨hrun, hcalls, hhosts⟩
    | call callee => exact blind_callInstruction hcalls hhosts' hrun callee
    | host => exact blind_hostInstruction hcalls hhosts' hrun i
    | ret => exact blind_returnInstruction hcalls hhosts' hrun
  · exact ⟨hrun _, hcalls, hhosts⟩

theorem blind_closeCall {call : HostCall ν} (hcaller : call.caller.Blind) (status : Status) :
    (closeCall w call calls status).Blind := by
  rw [closeCall]
  dsimp only
  rcases hc : call.caller with resume | ⟨run, window⟩
  · rw [hc] at hcaller
    dsimp only
    split
    · exact ⟨hcaller _, hcalls, hhosts⟩
    · exact ⟨hcaller _, hcalls, hhosts⟩
  · rw [hc] at hcaller
    dsimp only
    split
    · exact ⟨hcaller _, hcalls, hhosts⟩
    · split
      · exact ⟨hcaller, hcalls, hhosts⟩
      · exact ⟨hcaller _, hcalls, hhosts⟩

theorem blind_callCode {resume : Reply → HostProgram ν} (hresume : ∀ reply, (resume reply).Blind)
    (name : String) (chunk : Chunk) (index arguments : Nat) :
    (callCode w calls name chunk index arguments resume).Blind := by
  rw [callCode]
  dsimp only [World.log]
  rcases hentered : w.machine.enterFrame chunk index
    (w.machine.stack.size - chunk.functionArity index) with ⟨kind | frame, m⟩
  · have hhosts' : m.hosts.Blind := hhosts.of_enterFrame hentered
    exact ⟨hresume _, hcalls, hhosts'⟩
  · have hhosts' : m.hosts.Blind := hhosts.of_enterFrame hentered
    exact ⟨hresume, hcalls, hhosts'⟩

theorem blind_call {resume : Reply → HostProgram ν} (hresume : ∀ reply, (resume reply).Blind)
    (name : String) (arguments : Nat) : (call w calls name arguments resume).Blind := by
  rw [call]
  rcases hdispatch : w.machine.dispatch name arguments with failure | function | ⟨chunk, index⟩
  · exact ⟨hresume _, hcalls, hhosts⟩
  · have hbody := hhosts name function (get?_of_dispatch hdispatch)
    dsimp only [callHost]
    split
    · exact ⟨hresume _, hcalls, hhosts⟩
    · have hcaller : (Caller.program resume).Blind := hresume
      have hhosts' : (w.log (.hostCalled name arguments)).machine.hosts.Blind := hhosts
      exact blind_openCall hcalls hhosts' hbody name arguments hcaller
  · exact blind_callCode hcalls hhosts hresume name chunk index arguments

end Blind

end Config

def Progress.Blind : Progress ν → Prop
  | .more c => c.Blind
  | .halted _ w => w.machine.hosts.Blind

theorem World.blind_register {w : World ν} (hhosts : w.machine.hosts.Blind) (name : String)
    {function : HostFunction ν} (hbody : function.body.Blind) :
    (w.register name function).2.machine.hosts.Blind := by
  rw [register]
  split
  · exact hhosts
  · exact hhosts.register name hbody

/-- Blind host code stays blind. -/
theorem Config.Blind.step {c : Config ν} (h : c.Blind) : c.step.Blind := by
  obtain ⟨w, control, calls⟩ := c
  obtain ⟨hcontrol, hcalls, hhosts⟩ := h
  cases control with
  | code run => exact blind_codeStep hcalls hhosts hcontrol
  | host program =>
    cases program with
    | done status =>
      rcases calls with _ | ⟨call, calls⟩
      · exact hhosts
      · exact blind_closeCall (fun call hcall ↦ hcalls call (List.mem_cons_of_mem _ hcall)) hhosts
          (hcalls call List.mem_cons_self) status
    | ask query next => exact ⟨hcontrol.2 _, hcalls, hhosts⟩
    | act command next =>
      have hhosts' : (command.perform w).2.machine.hosts.Blind := by
        rw [(command.leaves_perform w).hosts]
        exact hhosts
      exact ⟨hcontrol _, hcalls, hhosts'⟩
    | register name arity body next =>
      exact ⟨hcontrol.2 _, hcalls, World.blind_register hhosts name hcontrol.1⟩
    | call name arguments next => exact blind_call hcalls hhosts hcontrol name arguments
    | note note next => exact ⟨hcontrol, hcalls, hhosts⟩

theorem Config.Blind.unread {c : Config ν} (h : c.Blind) : c.Unread := by
  intro next hnext
  have hcontrol := h.control
  rw [hnext] at hcontrol
  exact hcontrol.1 rfl

/-! ## Two machines side by side -/

variable {c c' : Config ν}

theorem step_congr_silent (hc : c.Unread) (hc' : c'.Unread) (h : c'.silent = c.silent) :
    c'.step.silent = c.step.silent := by
  rw [← step_silent hc', ← step_silent hc, h]

/-- Machines that are equal up to what is erased execute the same code. -/
theorem Config.parts_of_silent (h : c'.silent = c.silent) :
    c'.world.silent = c.world.silent ∧ c'.control = c.control ∧ c'.calls = c.calls := by
  obtain ⟨w, control, calls⟩ := c
  obtain ⟨w', control', calls'⟩ := c'
  exact Config.mk.inj h

theorem Config.Blind.of_silent (hblind : c.Blind) (h : c'.silent = c.silent) : c'.Blind := by
  obtain ⟨hworld, hcontrol, hcalls⟩ := parts_of_silent h
  have hhosts : c'.world.machine.hosts = c.world.machine.hosts := by
    rw [← World.hosts_silent, hworld, World.hosts_silent]
  constructor
  · rw [hcontrol]
    exact hblind.control
  · rw [hcalls]
    exact hblind.calls
  · rw [hhosts]
    exact hblind.hosts

theorem Config.Blind.after {p : Progress ν} (h : p.Blind) (n : Nat) : (p.after n).Blind := by
  induction n generalizing p with
  | zero =>
    rw [Progress.after_zero]
    exact h
  | succ n ih =>
    rcases p with c | ⟨status, w⟩
    · exact ih (Config.Blind.step h)
    · rw [Progress.after_halted]
      exact h

/-- The two machines are equal up to what is erased for as long as they run. -/
theorem after_congr_silent {p p' : Progress ν} (hblind : p.Blind) (h : p'.silent = p.silent)
    (n : Nat) : (p'.after n).silent = (p.after n).silent := by
  induction n generalizing p p' with
  | zero =>
    rw [Progress.after_zero, Progress.after_zero]
    exact h
  | succ n ih =>
    -- Neither machine halts before the other.
    rcases p with c | ⟨status, w⟩ <;> rcases p' with c' | ⟨status', w'⟩
    · have hsame : c'.silent = c.silent := Progress.more.inj h
      have hblind' : c'.Blind := Config.Blind.of_silent hblind hsame
      exact ih (Config.Blind.step hblind)
        (step_congr_silent (Config.Blind.unread hblind) hblind'.unread hsame)
    · cases h
    · cases h
    · rw [Progress.after_halted, Progress.after_halted]
      exact h

/-! ## Replies -/

theorem Config.answering_silent (k : Reply → HostProgram ν) (c : Config ν) :
    (c.answering k).silent = c.silent.answering k := by
  obtain ⟨w, control, calls⟩ := c
  cases control with
  | code run => rfl
  | host program =>
    cases program with
    | done status => cases calls <;> rfl
    | ask | act | register | call | note => rfl

/-- Whoever waits for the operation under way, the step asks what it asked before. -/
theorem Config.Unread.answering (h : c.Unread) (k : Reply → HostProgram ν) :
    (c.answering k).Unread := by
  obtain ⟨w, control, calls⟩ := c
  cases control with
  | code run => nofun
  | host program =>
    cases program with
    | ask query next => exact h
    | done status => cases calls <;> nofun
    | act | register | call | note => nofun

/-- Operations get the same replies. -/
theorem Config.answers_of_silent (hc : c.Unread) (hc' : c'.Unread) (h : c'.silent = c.silent)
    {reply : Reply} (hanswers : c.Answers reply) : c'.Answers reply := by
  intro k
  obtain ⟨w, calls, hstep⟩ := hanswers k
  have hsame : (c'.answering k).silent = (c.answering k).silent := by
    rw [answering_silent, answering_silent, h]
  have hnext := step_congr_silent (hc.answering k) (hc'.answering k) hsame
  rw [hstep] at hnext
  -- That host code goes on with the reply is not erased.
  rcases hstep' : (c'.answering k).step with d | ⟨status, w'⟩
  · rw [hstep'] at hnext
    obtain ⟨-, hcontrol, hcalls⟩ := parts_of_silent (Progress.more.inj hnext)
    obtain ⟨w', control, calls'⟩ := d
    cases hcontrol
    cases hcalls
    exact ⟨w', calls, rfl⟩
  · rw [hstep'] at hnext
    cases hnext

theorem Config.reply?_of_silent (hc : c.Unread) (hc' : c'.Unread) (h : c'.silent = c.silent) :
    c'.reply? = c.reply? := by
  by_cases hanswers : ∃ reply, c.Answers reply
  · obtain ⟨reply, hreply⟩ := hanswers
    rw [reply?_eq_some hreply, reply?_eq_some (answers_of_silent hc hc' h hreply)]
  · rw [reply?_eq_none fun reply hreply ↦ hanswers ⟨reply, hreply⟩,
      reply?_eq_none fun reply hreply ↦ hanswers ⟨reply, answers_of_silent hc' hc h.symm hreply⟩]

theorem Config.happens_of_silent (hc : c.Unread) (hc' : c'.Unread) (h : c'.silent = c.silent) :
    c'.happens = c.happens := by
  rw [happens, happens, reply?_of_silent hc hc' h, (parts_of_silent h).2.1]

/-- The same happens to both error logs. -/
theorem happenings_congr_silent {p p' : Progress ν} (hblind : p.Blind)
    (h : p'.silent = p.silent) (n : Nat) : p'.happenings n = p.happenings n := by
  induction n generalizing p p' with
  | zero => cases p <;> cases p' <;> rfl
  | succ n ih =>
    rcases p with c | ⟨status, w⟩ <;> rcases p' with c' | ⟨status', w'⟩
    · have hsame : c'.silent = c.silent := Progress.more.inj h
      have hunread := Config.Blind.unread hblind
      have hunread' := (Config.Blind.of_silent hblind hsame).unread
      rw [Progress.happenings, Progress.happenings, Config.happens_of_silent hunread hunread' hsame,
        ih (Config.Blind.step hblind) (step_congr_silent hunread hunread' hsame)]
    · cases h
    · cases h
    · rfl

/-! ## Records -/

/-- After a failure it does not matter what was recorded before. -/
theorem foldl_record_of_report {happenings : List (Happening ν)}
    (h : ∃ happening ∈ happenings, happening.report?.isSome)
    (earlier earlier' : Option ErrorRecord) :
    happenings.foldl Happening.record earlier = happenings.foldl Happening.record earlier' := by
  induction happenings generalizing earlier earlier' with
  | nil =>
    obtain ⟨happening, hmem, -⟩ := h
    cases hmem
  | cons first happenings ih =>
    rw [List.foldl_cons, List.foldl_cons]
    by_cases hfirst : first.report?.isSome
    · obtain ⟨report, hreport⟩ := Option.isSome_iff_exists.mp hfirst
      rw [Happening.record, Happening.record, hreport, Option.some_or, Option.some_or]
    · obtain ⟨happening, hmem, hreport⟩ := h
      rcases List.mem_cons.mp hmem with rfl | hmem
      · exact absurd hreport hfirst
      · exact ih ⟨happening, hmem, hreport⟩ _ _

/-- A machine that is equal up to what is erased has separate frames too. -/
theorem exists_onto_of_silent {own : Separate.Config ν .host}
    (h : c'.silent = (own.onto .nothing).silent) :
    ∃ own' : Separate.Config ν .host, c' = own'.onto .nothing := by
  obtain ⟨s, control⟩ := own
  obtain ⟨w', control', calls'⟩ := c'
  obtain ⟨hworld, hcontrol, hcalls⟩ := Config.parts_of_silent h
  -- The stack is not erased, so the frames of the one machine are those of the other.
  refine ⟨⟨{ s with errors := w'.machine.errors, journal := w'.journal }, control⟩, ?_⟩
  have hparts : w' = ⟨{ w'.silent.machine with errors := w'.machine.errors }, w'.silent.files,
    w'.journal⟩ := rfl
  rw [show w'.silent = _ from hworld] at hparts
  cases control with
  | host window program waiting => exact congr (congr (congrArg Config.mk hparts) hcontrol) hcalls
  | code run waiting => exact congr (congr (congrArg Config.mk hparts) hcontrol) hcalls

/-- The error state never influences execution. Take a machine in any state that embedding code can
bring about, with host code that is blind, and another one that differs from it in its error record,
its listener and its journal alone. For as long as they run, they differ in nothing else, and every
operation gets the same reply and every other question the same answer. The same failures happen to
both, and once there was one, their error records are equal. -/
theorem error_state_never_influences_execution (hreach : c.Reachable) (hblind : c.Blind)
    (hsame : c'.silent = c.silent) (n : Nat) :
    let p := (Progress.more c).after n
    let p' := (Progress.more c').after n
    p'.silent = p.silent ∧
    (∀ d d', p = .more d → p' = .more d' → d'.reply? = d.reply? ∧
      ∀ query : Query, query ≠ .errorRecord → query.answer d'.world = query.answer d.world) ∧
    (Progress.more c').happenings n = (Progress.more c).happenings n ∧
    ((∃ happening ∈ (Progress.more c).happenings n, happening.report?.isSome) →
      p'.world.machine.errors.record = p.world.machine.errors.record) := by
  intro p p'
  have hstart : (Progress.more c').silent = (Progress.more c).silent :=
    congrArg Progress.more hsame
  have hblind : (Progress.more c).Blind := hblind
  have hafter : p'.silent = p.silent := after_congr_silent hblind hstart n
  have hhappenings := happenings_congr_silent hblind hstart n
  refine ⟨hafter, ?_, hhappenings, ?_⟩
  · intro d d' hd hd'
    have hsame' : d'.silent = d.silent := by
      rw [hd, hd'] at hafter
      exact Progress.more.inj hafter
    have hd : d.Blind := by
      have hp : p.Blind := Config.Blind.after hblind n
      rwa [hd] at hp
    refine ⟨Config.reply?_of_silent hd.unread (hd.of_silent hsame').unread hsame', ?_⟩
    intro query hquery
    rw [← Query.answer_silent hquery, (Config.parts_of_silent hsame').1, Query.answer_silent hquery]
  · -- Both error logs follow the same happenings, and one of these overwrites the record.
    intro hreport
    obtain ⟨own, rfl, -⟩ := exists_onto_of_reachable RunProperty.anything_kept hreach
    obtain ⟨own', rfl⟩ := exists_onto_of_silent hsame
    have hrecord : p.world.errorLog.errors.record = _ := (after_follows own n).1.record
    have hrecord' : p'.world.errorLog.errors.record = _ := (after_follows own' n).1.record
    rw [hhappenings] at hrecord'
    exact hrecord'.trans ((foldl_record_of_report hreport _ _).trans hrecord.symm)

/-! ## A machine with a stale record -/

namespace Stale

/-- Host code that asks for a global that is not bound. -/
def program : HostProgram String :=
  .act (.getGlobal "k") fun _ ↦ .done .ok

def fresh : Config String :=
  .start ⟨{}, {}, #[]⟩ program

/-- The same machine after a failure, with a listener. -/
def stale : Config String :=
  .start ⟨{ errors := ⟨some ⟨.typeError, "stale"⟩, some id⟩ }, {}, #[]⟩ program

theorem blind : fresh.Blind := by
  refine ⟨fun _ ↦ trivial, nofun, ?_⟩
  intro name function hget
  simp [fresh, Config.start, HostRegistry.get?] at hget

theorem happens : fresh.happens = [.failed (.globalNotFound "k")] := by
  have hget : (Command.getGlobal "k").perform fresh.world
      = fresh.world.fail (.globalNotFound "k") := by
    simp [Command.perform, World.getGlobal, Globals.get?, fresh, Config.start]
  have hanswers : fresh.Answers ((Command.getGlobal "k").perform fresh.world).1 :=
    fun _ ↦ ⟨_, _, rfl⟩
  rw [hget] at hanswers
  rw [Config.happens, Config.reply?_eq_some hanswers]
  rfl

end Stale

theorem error_state_never_influences_execution_stale :
    Stale.fresh.Reachable ∧ Stale.fresh.Blind ∧ Stale.stale.silent = Stale.fresh.silent ∧
      Stale.stale.world.machine.errors.record ≠ Stale.fresh.world.machine.errors.record ∧
      ((Progress.more Stale.stale).after 1).world.machine.errors.record
        = ((Progress.more Stale.fresh).after 1).world.machine.errors.record := by
  have hreach : Stale.fresh.Reachable := .fresh {} {} #[] Stale.program
  have hsame : Stale.stale.silent = Stale.fresh.silent := rfl
  obtain ⟨-, -, -, hrecord⟩ := error_state_never_influences_execution hreach Stale.blind hsame 1
  refine ⟨hreach, Stale.blind, hsame, nofun, hrecord ⟨.failed (.globalNotFound "k"), ?_, rfl⟩⟩
  rw [Progress.happenings, Stale.happens]
  exact List.mem_cons_self

end Bytecode
