import Bytecode.Embedding.Foreign
import Bytecode.Proofs.Layout
import Bytecode.Proofs.LoadGate
import Bytecode.Proofs.Separate.Journal

/-!
# What foreign code is told of failures

Foreign code learns of a failure in three ways: by the status that a request returns, by the error
record, which it can read as a text without zero characters, and by the listener it has installed.
They always agree.

There are two sources of failures. Arguments are examined before a request reaches the machine, and
the requests that are not well formed are exactly those refused there (`operation_error_iff`). All
others become an operation of host code, whose failures the machine reports by itself
(`ErrorLog.Reported`). A call reports its own failure last, after everything that happened inside.
-/

namespace Bytecode

variable {ν : Type}

/-! ## Reporting a failure -/

/-- The failure is the one that was recorded last, and whoever listens was told of it last. -/
structure ErrorLog.Reported (log : ErrorLog ν) (report : ErrorRecord) (log' : ErrorLog ν) :
    Prop where
  record : log'.errors.record = some report
  heard : ∃ earlier, heard log'.journal = heard log.journal ++ earlier
    ++ (log'.errors.listener.map fun hear ↦ hear report.message).toList

namespace ErrorLog

variable {log log' log'' : ErrorLog ν} {report : ErrorRecord}

theorem Reported.of_follows {happening : Happening ν} (hreport : happening.report? = some report)
    (h : log.Follows [happening] log') : log.Reported report log' := by
  have hkept : happening.listener log.errors.listener = log.errors.listener ∧
      happening.isCleared = false := by
    cases happening with
    | failed | raised => exact ⟨rfl, rfl⟩
    | cleared | listening => cases hreport
  have hlistener : log'.errors.listener = log.errors.listener := h.listener.trans hkept.1
  constructor
  · rw [h.record, List.foldl_cons, List.foldl_nil, Happening.record, hkept.2, hreport]
    rfl
  · refine ⟨[], ?_⟩
    rw [h.heard, firings_singleton hreport, hlistener, List.append_nil]

/-- What was noted before the failure came on top of what had been noted earlier. -/
theorem Reported.after (h : log'.Reported report log'') {more : Array (Event ν)}
    (hjournal : log'.journal = log.journal ++ more) : log.Reported report log'' := by
  obtain ⟨hrecord, earlier, hheard⟩ := h
  refine ⟨hrecord, Bytecode.heard more ++ earlier, ?_⟩
  have hmore : Bytecode.heard log'.journal
      = Bytecode.heard log.journal ++ Bytecode.heard more := by
    rw [hjournal, Bytecode.heard, Array.toList_append, List.filterMap_append]
    rfl
  rw [hheard, hmore, List.append_assoc (Bytecode.heard log.journal)]

theorem reported_fail (log : ErrorLog ν) (failure : Failure) :
    log.Reported ⟨failure.status, failure.message⟩ ⟨log.errors.raise failure.status failure.message,
      log.journal ++ log.errors.announcements failure.status failure.message⟩ :=
  .of_follows rfl (log.follows_raise (.failed failure) rfl)

end ErrorLog

namespace Separate

variable {s s' : Shared ν} {b : Awaited} {g : Ground} {result : Result b}

/-- A machine only adds to the journal. -/
theorem exists_journal_of_ends (machine : Shared ν → Progress ν b)
    (hmachine : ∀ past s, machine (s.precededBy past) = (machine s).precededBy past)
    (h : (machine s).Ends g s' result) : ∃ more, s'.journal = s.journal ++ more := by
  obtain ⟨s₀, rfl, -⟩ := exists_ends_of_ends machine hmachine h #[]
  exact ⟨s₀.journal, rfl⟩

end Separate

open Separate

/-- A call that fails reports the failure as the last thing it does. -/
theorem reported_call {w w' : World ν} {name : String} {arguments : Nat} {failure : Failure}
    (hbase : w.machine.stack.base ≤ w.machine.stack.values.size)
    (hreturn : w.CallReturns name arguments (.error failure) w') :
    w.errorLog.Reported ⟨failure.status, failure.message⟩ w'.errorLog := by
  cases hdispatch : w.machine.dispatch name arguments with
  | error failure' =>
    obtain ⟨hsame, rfl⟩ := callReturns_of_dispatch_error hdispatch hreturn
    cases hsame
    exact w.errorLog.reported_fail failure
  | ok callee =>
    obtain ⟨s, below, passed, base, depth, hbelow, rfl, rfl⟩ :=
      exists_arguments hbase (dispatch_ok hdispatch).1
    cases callee with
    | code chunk index =>
      -- What happened inside was noted before, because the trap is raised when the run has ended.
      obtain ⟨s', outcome, hends, hreply, rfl⟩ :=
        (callReturns_code_iff hbelow hdispatch).mp hreturn
      obtain ⟨more, hjournal⟩ := exists_journal_of_ends
        (fun s ↦ codeMachine s below depth name chunk index passed)
        (fun past s ↦ codeMachine_precededBy past s ..) hends
      cases outcome with
      | ok value => cases hreply
      | error trap =>
        cases hreply
        exact (s'.errorLog.reported_fail (.trapped trap)).after hjournal
    | host function =>
      by_cases hdepth : s.limits.callDepth ≤ depth
      · obtain ⟨hsame, rfl⟩ := callReturns_of_depth_exceeded hdispatch hdepth hreturn
        cases hsame
        exact ((s.log (.hostCalled name passed.length)).errorLog.reported_fail _).after
          Array.push_eq_append
      · obtain ⟨s', status, window, hends, hreply, rfl⟩ :=
          (callReturns_host_iff hbelow hdispatch hdepth).mp hreturn
        obtain ⟨more, hjournal⟩ := exists_journal_of_ends
          (fun s ↦ hostMachine s name function passed)
          (fun past s ↦ hostMachine_precededBy past s ..) hends
        rw [hostReply] at hreply
        rw [Shared.afterHost]
        cases hok : status.isOk with
        | true =>
          rw [hok] at hreply
          cases hreply
        | false =>
          rw [hok] at hreply
          cases hreply
          exact (s'.errorLog.reported_fail (.hostFailed name status)).after hjournal

namespace Foreign

/-! ## Arguments -/

/-- The arguments are refused. -/
def Refused {α : Type} (x : Except String α) : Prop :=
  ∃ message, x = .error message

theorem not_refused_ok {α : Type} (a : α) : ¬Refused (.ok a) := by
  rintro ⟨message, h⟩
  cases h

/-- One argument is examined after another. -/
theorem refused_bind_iff {α β : Type} {x : Except String α} {f : α → Except String β} {p : Prop}
    (hf : ∀ a, Refused (f a) ↔ p) : Refused (x >>= f) ↔ Refused x ∨ p := by
  cases x with
  | error message => exact ⟨fun _ ↦ .inl ⟨message, rfl⟩, fun _ ↦ ⟨message, rfl⟩⟩
  | ok a => exact (hf a).trans (or_iff_right (not_refused_ok a)).symm

/-- There is no text: the pointer is null, or the bytes up to the first zero encode none. -/
def NoText : Option Bytes → Prop
  | none => True
  | some bytes => ∀ text, Text.Utf8.encode text ≠ cut bytes

theorem refused_nameArgument_iff (what : String) (name : Option Bytes) :
    Refused (nameArgument what name) ↔ NoText name := by
  cases name with
  | none => exact ⟨fun _ ↦ trivial, fun _ ↦ ⟨_, rfl⟩⟩
  | some bytes =>
    rw [nameArgument, NoText]
    cases hdecode : Text.Utf8.decode? (cut bytes) with
    | some text =>
      have hbytes := Text.Utf8.decode?_eq_some_iff.mp hdecode
      exact ⟨fun h ↦ absurd h (not_refused_ok text), fun h ↦ absurd hbytes (h text)⟩
    | none =>
      refine ⟨fun _ text hbytes ↦ ?_, fun _ ↦ ⟨_, rfl⟩⟩
      rw [Text.Utf8.decode?_eq_some_iff.mpr hbytes] at hdecode
      cases hdecode

theorem refused_countArgument_iff (what : String) (n : Int) :
    Refused (countArgument what n) ↔ n < 0 := by
  rw [countArgument]
  split
  · rename_i hneg
    exact ⟨fun _ ↦ hneg, fun _ ↦ ⟨_, rfl⟩⟩
  · rename_i hneg
    exact ⟨fun h ↦ absurd h (not_refused_ok _), fun h ↦ absurd h hneg⟩

theorem refused_pathArgument_iff (path : Option Bytes) :
    Refused (pathArgument path) ↔ path = none := by
  cases path with
  | none => exact ⟨fun _ ↦ rfl, fun _ ↦ ⟨_, rfl⟩⟩
  | some bytes => exact ⟨fun h ↦ absurd h (not_refused_ok _), nofun⟩

namespace Request

/-- A pointer is null that must not be, a name is no text, or a count is negative. -/
def IllFormed : Request ν → Prop
  | .call name arguments => NoText name ∨ arguments < 0
  | .register name arity body => NoText name ∨ arity < 0 ∨ body = none
  | .setGlobal name | .getGlobal name => NoText name
  | .load data => data = none
  | .loadFile path | .saveFile path => path = none

/-- The requests that are refused before they reach the machine are those that are not well
formed. -/
theorem operation_error_iff (request : Request ν) :
    Refused request.operation ↔ request.IllFormed := by
  have hreturn {α : Type} (a : α) : Refused (pure a) ↔ False :=
    ⟨fun h ↦ not_refused_ok a h, False.elim⟩
  cases request with
  | call name arguments =>
    rw [operation, IllFormed, refused_bind_iff (p := arguments < 0) fun _ ↦ ?_,
      refused_nameArgument_iff]
    rw [refused_bind_iff fun _ ↦ hreturn _, refused_countArgument_iff, or_false]
  | register name arity body =>
    rw [operation, IllFormed, refused_bind_iff (p := arity < 0 ∨ body = none) fun _ ↦ ?_,
      refused_nameArgument_iff]
    rw [refused_bind_iff (p := body = none) fun _ ↦ ?_, refused_countArgument_iff]
    cases body with
    | none => exact ⟨fun _ ↦ rfl, fun _ ↦ ⟨_, rfl⟩⟩
    | some body => exact ⟨fun h ↦ absurd h (not_refused_ok _), nofun⟩
  | setGlobal name | getGlobal name =>
    rw [operation, IllFormed, refused_bind_iff fun _ ↦ hreturn _, refused_nameArgument_iff,
      or_false]
  | load data =>
    cases data with
    | none => exact ⟨fun _ ↦ rfl, fun _ ↦ ⟨_, rfl⟩⟩
    | some bytes => exact ⟨fun h ↦ absurd h (not_refused_ok _), nofun⟩
  | loadFile path | saveFile path =>
    rw [operation, IllFormed, refused_bind_iff fun _ ↦ hreturn _, refused_pathArgument_iff,
      or_false]

def isCall : Request ν → Bool
  | .call _ _ => true
  | .register _ _ _ | .setGlobal _ | .getGlobal _ | .load _ | .loadFile _ | .saveFile _ => false

/-! ## Returning -/

variable {w w' : World ν} {request : Request ν} {operation : Host ν Reply}

theorem live_of_error {message : String} (h : request.operation = .error message) (w : World ν) :
    request.live.Returns w .invalidArgument (w.raise .invalidArgument message) := by
  rw [live, h]
  exact (Host.returns_act_ w _).bind (Host.returns_pure _ _)

theorem live_of_ok (h : request.operation = .ok operation) {reply : Reply}
    (hreturn : operation.Returns w reply w') : request.live.Returns w reply.status w' := by
  rw [live, h]
  exact hreturn.map Reply.status

/-- Every request but a call is answered at once, and what the machine notes is what the reply
means. -/
theorem exists_reports (h : request.operation = .ok operation) (hcall : request.isCall = false)
    (w : World ν) : ∃ reply w', operation.Returns w reply w' ∧ w.Reports none (reply, w') := by
  have hact (command : Command ν) (hnone : command.happening? = none) :
      ∃ reply w', (Host.act command).Returns w reply w' ∧ w.Reports none (reply, w') :=
    ⟨_, _, Host.returns_act w command, hnone ▸ World.reports_perform command⟩
  cases request with
  | call name arguments => cases hcall
  | register name arity body =>
    obtain ⟨name, -, h⟩ := bind_eq_ok_iff.mp h
    obtain ⟨arity, -, h⟩ := bind_eq_ok_iff.mp h
    cases body with
    | none => cases h
    | some body =>
      cases h
      exact ⟨_, _, Host.returns_register w name arity body,
        World.reports_register name ⟨arity, body⟩⟩
  | setGlobal name =>
    obtain ⟨name, -, h⟩ := bind_eq_ok_iff.mp h
    cases h
    exact hact (.setGlobal name) rfl
  | getGlobal name =>
    obtain ⟨name, -, h⟩ := bind_eq_ok_iff.mp h
    cases h
    exact hact (.getGlobal name) rfl
  | load data =>
    cases data with
    | none => cases h
    | some bytes =>
      cases h
      exact hact (.load bytes) rfl
  | loadFile path =>
    obtain ⟨path, -, h⟩ := bind_eq_ok_iff.mp h
    cases h
    exact hact (.loadFile path) rfl
  | saveFile path =>
    obtain ⟨path, -, h⟩ := bind_eq_ok_iff.mp h
    cases h
    exact hact (.saveFile path) rfl

/-- A request that returns was carried out by an operation that returns. -/
theorem exists_reply (hbase : w.machine.stack.base ≤ w.machine.stack.values.size)
    (h : request.operation = .ok operation) {status : Status}
    (hreturn : request.live.Returns w status w') :
    ∃ reply w'', operation.Returns w reply w'' ∧ ∀ failure, reply = .error failure →
      w.errorLog.Reported ⟨failure.status, failure.message⟩ w''.errorLog := by
  cases hcall : request.isCall with
  | false =>
    obtain ⟨reply, w'', hoperation, hreports⟩ := exists_reports h hcall w
    refine ⟨reply, w'', hoperation, fun failure hreply ↦ ?_⟩
    rw [hreply] at hreports
    have hfollows : w.errorLog.Follows [.failed failure] w''.errorLog := hreports.follows
    exact .of_follows rfl hfollows
  | true =>
    cases request with
    | call name arguments =>
      rw [live, h] at hreturn
      obtain ⟨name, -, h⟩ := bind_eq_ok_iff.mp h
      obtain ⟨arguments, -, h⟩ := bind_eq_ok_iff.mp h
      cases h
      -- If the call did not return, neither would the request under a program that ends then.
      obtain ⟨reply, w'', hoperation⟩ :=
        exists_callReturns_of_halts hbase (hreturn (fun _ ↦ .done .ok) []) rfl
      refine ⟨reply, w'', hoperation, fun failure hreply ↦ ?_⟩
      rw [hreply] at hoperation
      exact reported_call hbase hoperation
    | register | setGlobal | getGlobal | load | loadFile | saveFile => cases hcall

/-- A request that fails has its failure recorded under the status it returns. -/
theorem exists_reported (hbase : w.machine.stack.base ≤ w.machine.stack.values.size)
    {status : Status} (hreturn : request.live.Returns w status w') (hstatus : status ≠ .ok) :
    ∃ message, w.errorLog.Reported ⟨status, message⟩ w'.errorLog := by
  cases hoperation : request.operation with
  | error message =>
    obtain ⟨rfl, rfl⟩ := hreturn.unique (live_of_error hoperation w)
    exact ⟨message, .of_follows rfl (w.errorLog.follows_raise (.raised _ message) rfl)⟩
  | ok operation =>
    obtain ⟨reply, w'', hreply, hreported⟩ := exists_reply hbase hoperation hreturn
    obtain ⟨rfl, rfl⟩ := hreturn.unique (live_of_ok hoperation hreply)
    cases reply with
    | ok => exact absurd rfl hstatus
    | error failure => exact ⟨failure.message, hreported failure rfl⟩

end Request

/-! ## Reading failures -/

/-- Foreign code has installed this listener. It is told messages without zero characters. -/
def Hears (w : World ν) (hear : Listener ν) : Prop :=
  w.machine.errors.listener = some fun message ↦ hear (withoutZeros message)

theorem hears_setListener {w w' : World ν} {hear : Listener ν}
    (h : (setListener (some hear)).live.Returns w () w') : Hears w' hear := by
  obtain ⟨-, rfl⟩ := h.unique (Host.returns_act_ w _)
  rfl

theorem toList_withoutZeros (text : String) : (withoutZeros text).toList
    = text.toList.map fun c ↦ if c = '\x00' then '\uFFFD' else c :=
  String.toList_map

theorem zero_notMem_withoutZeros (text : String) : '\x00' ∉ (withoutZeros text).toList := by
  rw [toList_withoutZeros, List.mem_map]
  rintro ⟨c, -, hc⟩
  split at hc
  · exact absurd hc (by decide)
  · rename_i hne
    exact hne hc

/-- What foreign code finds after a failure: its record, a text in place of its message, and the
same text as the last thing that the listener was told. -/
structure Shows (w : World ν) (report : ErrorRecord) (text : String) (w' : World ν) : Prop where
  record : w'.machine.errors.record = some report
  hasError : hasError.live.Returns w' true w'
  error : error?.live.Returns w' (some text) w'
  text_eq : text.toList = report.message.toList.map fun c ↦ if c = '\x00' then '\uFFFD' else c
  zero_notMem : '\x00' ∉ text.toList
  heard {hear : Listener ν} : Hears w' hear →
    ∃ earlier, heard w'.journal = heard w.journal ++ earlier ++ [hear text]

theorem Shows.of_reported {w w' : World ν} {report : ErrorRecord}
    (h : w.errorLog.Reported report w'.errorLog) : Shows w report report.visibleMessage w' := by
  obtain ⟨hrecord, earlier, hheard⟩ := h
  have hread := Host.returns_ask w' .errorRecord
  rw [show Query.answer w' .errorRecord = some report from hrecord] at hread
  exact {
    record := hrecord
    hasError := hread.map Option.isSome
    error := hread.map fun record ↦ record.map ErrorRecord.visibleMessage
    text_eq := toList_withoutZeros _
    zero_notMem := zero_notMem_withoutZeros _
    heard := fun hhears ↦ ⟨earlier, by
      rw [Hears] at hhears
      rw [show w'.errorLog.errors.listener = _ from hhears] at hheard
      exact hheard⟩ }

end Foreign

/-- The status that a request returns and the error state always agree. Whatever the arguments, a
request that fails leaves its status in the record, and the text that foreign code reads is the one
its listener was told last. Arguments that are not well formed are refused with nothing but a record
of it, of which a listener is told once. No other request but a call touches the record unless it
fails. -/
theorem request_status_agrees_with_error_record {w : World ν} {program : HostProgram ν}
    {calls : List (HostCall ν)} (hreach : Config.Reachable ⟨w, .host program, calls⟩)
    (request : Foreign.Request ν) :
    (∀ status w', request.live.Returns w status w' → status ≠ .ok →
      ∃ message text, Foreign.Shows w ⟨status, message⟩ text w') ∧
    (request.IllFormed → ∃ message w', request.live.Returns w .invalidArgument w' ∧
      w'.machine = { w.machine with
        errors := { w.machine.errors with record := some ⟨.invalidArgument, message⟩ } } ∧
      w'.files = w.files ∧
      heard w'.journal = heard w.journal
        ++ (w.machine.errors.listener.map fun hear ↦ hear message).toList) ∧
    (request.isCall = false → ∃ status w', request.live.Returns w status w' ∧
      (status = .ok → w'.machine.errors.record = w.machine.errors.record)) := by
  have hbase := base_le_of_reachable hreach
  refine ⟨fun status w' hreturn hstatus ↦ ?_, fun hrefused ↦ ?_, fun hcall ↦ ?_⟩
  · obtain ⟨message, hreported⟩ := Foreign.Request.exists_reported hbase hreturn hstatus
    exact ⟨message, _, .of_reported hreported⟩
  · obtain ⟨message, hoperation⟩ := request.operation_error_iff.mpr hrefused
    have hfollows := w.errorLog.follows_raise (.raised .invalidArgument message) rfl
    have hheard := hfollows.heard
    rw [firings_singleton rfl] at hheard
    exact ⟨message, _, Foreign.Request.live_of_error hoperation w, rfl, rfl, hheard⟩
  · cases hoperation : request.operation with
    | error message =>
      exact ⟨_, _, Foreign.Request.live_of_error hoperation w, fun hstatus ↦ by cases hstatus⟩
    | ok operation =>
      obtain ⟨reply, w', hreply, hreports⟩ := Foreign.Request.exists_reports hoperation hcall w
      refine ⟨_, w', Foreign.Request.live_of_ok hoperation hreply, fun hstatus ↦ ?_⟩
      cases reply with
      | ok => exact hreports.follows.record
      | error failure => exact absurd hstatus (hreports.status rfl)

/-! ## A message with a zero character -/

namespace Unbound

/-- A function that reads a global whose name is a zero character. -/
def function : FunctionDef :=
  ⟨"read", 0, 0, #[{ opcode := .getGlobal }, { opcode := .ret }]⟩

def chunk : Chunk :=
  ⟨#[.str [0]], #[function]⟩

theorem verified : chunk.Verified :=
  Verify.verified_of_single (by decide) (by decide) (by decide) (by decide) (by decide)

theorem loadable : Loadable chunk.encode chunk :=
  .of_toOption nofun (by decide +kernel) verified

/-- The machine once `chunk` is loaded. -/
def loaded : World String :=
  ⟨{ chunk := some chunk }, {}, #[.logged (.loaded 1 1 false)]⟩

/-- The same machine with a listener that keeps every text. -/
def world : World String :=
  { loaded with machine := { loaded.machine with
    errors := { listener := some fun message ↦ id (withoutZeros message) } } }

theorem listens : (Foreign.setListener (some id)).live.Returns loaded () world :=
  Host.returns_act_ loaded _

theorem reachable : Config.Reachable ⟨world, .host (.done .ok), []⟩ := by
  let program : HostProgram String := (Foreign.setListener (some id)).live fun _ ↦ .done .ok
  have hstart : Config.Reachable (.start ⟨{}, {}, #[]⟩
      (.act (.load chunk.encode) fun _ ↦ program)) := .fresh {} {} #[] _
  have hloaded : Config.Reachable ⟨loaded, .host program, []⟩ :=
    hstart.step (step_load loadable _ _ _)
  exact hloaded.step rfl

/-- The trap in which `read` ends. -/
def trap : Trap :=
  ⟨.unknownGlobal (Text.Utf8.decodeLossy [0]), "read", 0⟩

/-- What the parts of the machine share while `read` executes. -/
def shared : Shared String :=
  (Shared.ofWorld world).log (.codeCalled "read" 0)

def run : Run :=
  ⟨chunk, ⟨0, 0, [], []⟩, []⟩

theorem turn_run : run.turn shared 0 0 = .ends (.error trap) := by
  have hinstruction : run.chunk.instruction? run.frame.function run.frame.pc
      = some { opcode := .getGlobal } := rfl
  have hname : Separate.name run.chunk 0 = .ok [0] := rfl
  have hglobal : shared.globals.get? [0] = none := by
    simp [shared, Shared.log, Shared.ofWorld, world, loaded, Globals.get?]
  rw [Run.turn, hinstruction]
  simp only [Separate.Frame.exec, hname, bind, Except.bind, hglobal]
  rfl

theorem ends : (codeMachine (.ofWorld world) [] 0 "read" chunk 0 []).Ends ⟨[], 0⟩ shared
    (.code (.error trap)) := by
  refine ⟨1, ?_⟩
  change Separate.Progress.ofTurn shared .outside (run.turn shared 0 0) = _
  rw [turn_run]
  rfl

def worldAfter : World String :=
  shared.afterCode [] 0 0 (.error trap)

theorem callReturns : world.CallReturns "read" 0 (.error (.trapped trap)) worldAfter := by
  have hshadow : world.machine.hosts.get? "read" = none := by
    simp [world, loaded, HostRegistry.get?]
  have hdispatch : world.machine.dispatch "read" 0 = .ok (.code chunk 0) :=
    @dispatch_of_loaded _ world.machine chunk 0 function verified rfl rfl hshadow (by decide)
  exact (@callReturns_code_iff String (.ofWorld world) [] [] 0 0 "read" _ worldAfter chunk 0
    (Nat.zero_le _) hdispatch).mpr ⟨shared, .error trap, ends, rfl, rfl⟩

def request : Foreign.Request String :=
  .call (some (Text.Utf8.encode "read")) 0

theorem returns : request.live.Returns world .runtimeError worldAfter := by
  have hname : Foreign.nameArgument "function name" (some (Text.Utf8.encode "read"))
      = .ok "read" := by
    decide +kernel
  have hoperation : request.operation = .ok (Host.call "read" 0) := by
    rw [request, Foreign.Request.operation, hname]
    rfl
  exact Foreign.Request.live_of_ok hoperation callReturns

end Unbound

theorem request_status_agrees_with_error_record_unbound :
    Config.Reachable ⟨Unbound.world, .host (.done .ok), []⟩ ∧
      Unbound.request.live.Returns Unbound.world .runtimeError Unbound.worldAfter ∧
      Foreign.Hears Unbound.worldAfter id ∧
      ∃ message text, Foreign.Shows Unbound.world ⟨.runtimeError, message⟩ text Unbound.worldAfter ∧
        '\x00' ∈ message.toList ∧ '\x00' ∉ text.toList := by
  have hhears : Foreign.Hears Unbound.world id := Foreign.hears_setListener Unbound.listens
  obtain ⟨message, text, hshows⟩ := (request_status_agrees_with_error_record Unbound.reachable
    Unbound.request).1 _ _ Unbound.returns (by decide)
  refine ⟨Unbound.reachable, Unbound.returns, hhears, message, text, hshows, ?_,
    hshows.zero_notMem⟩
  have hmessage : message = Unbound.trap.message :=
    congrArg ErrorRecord.message (Option.some.inj hshows.record).symm
  rw [hmessage]
  decide +kernel

end Bytecode
