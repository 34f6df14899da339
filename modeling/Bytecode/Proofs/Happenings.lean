import Bytecode.Proofs.Run

/-!
# What happens to the error log

A machine remembers its most recent failure and tells a listener of every failure. Here is what both
should come to, said in terms of what host code sees and without a look at the error state.

## What host code sees

An operation *answers* with a reply if, whatever the host code is that waits for the reply, it goes
on with just this reply (`Config.Answers`). A step answers one operation or none; a call is answered
when it returns, after all that was done inside. Replies that are failures, and the commands that
raise, clear and listen, are what happens to the error log (`Progress.happenings`).

## What it comes to

The record is the last failure since it was last cleared (`lastReport`), and every failure is told
to the listener that is installed by then (`firings`). `ErrorLog.Follows` says of two logs that the
second becomes of the first by what happens; it is made so that it can be put together step by step.
-/

namespace Bytecode

variable {ν : Type}

/-! ## Replies -/

/-- The caller with `k` in the place of the host code that waits for the call under way. -/
def Caller.answering (k : Reply → HostProgram ν) : Caller ν → Caller ν
  | .program _ => .program k
  | .code run window => .code { run with resume := k } window

namespace Config

/-- The configuration with `k` in the place of the host code that waits for the operation under
way. -/
def answering (k : Reply → HostProgram ν) : Config ν → Config ν
  | ⟨w, .host (.act command _), calls⟩ => ⟨w, .host (.act command k), calls⟩
  | ⟨w, .host (.register name arity body _), calls⟩ =>
    ⟨w, .host (.register name arity body k), calls⟩
  | ⟨w, .host (.call name arguments _), calls⟩ => ⟨w, .host (.call name arguments k), calls⟩
  | ⟨w, .host (.done status), call :: calls⟩ =>
    ⟨w, .host (.done status), { call with caller := call.caller.answering k } :: calls⟩
  | ⟨w, .code run, calls⟩ => ⟨w, .code { run with resume := k }, calls⟩
  | c => c

/-- The next step ends the operation under way with this reply. -/
def Answers (c : Config ν) (reply : Reply) : Prop :=
  ∀ k, ∃ w calls, (c.answering k).step = .more ⟨w, .host (k reply), calls⟩

theorem Answers.unique {c : Config ν} {reply reply' : Reply} (h : c.Answers reply)
    (h' : c.Answers reply') : reply = reply' := by
  classical
  -- A program whose status tells `reply` from every other reply.
  let k : Reply → HostProgram ν := fun r ↦ .done (if r = reply then .ok else .runtimeError)
  obtain ⟨w, calls, hstep⟩ := h k
  obtain ⟨w', calls', hstep'⟩ := h' k
  rw [hstep] at hstep'
  refine Classical.byContradiction fun hne ↦ ?_
  simp [k, Ne.symm hne] at hstep'

open Classical in
/-- The reply with which the next step ends an operation, if it does. -/
noncomputable def reply? (c : Config ν) : Option Reply :=
  if h : ∃ reply, c.Answers reply then some h.choose else none

theorem reply?_eq_some {c : Config ν} {reply : Reply} (h : c.Answers reply) :
    c.reply? = some reply := by
  have hex : ∃ reply, c.Answers reply := ⟨reply, h⟩
  rw [reply?, dif_pos hex]
  exact congrArg some (hex.choose_spec.unique h)

theorem reply?_eq_none {c : Config ν} (h : ∀ reply, ¬c.Answers reply) : c.reply? = none :=
  dif_neg fun ⟨reply, hreply⟩ ↦ h reply hreply

end Config

/-! ## What happens to the error log -/

/-- What bears on the error log. -/
inductive Happening (ν : Type) where
  /-- An operation failed. -/
  | failed (failure : Failure)
  /-- Host code raised a failure of its own. -/
  | raised (status : Status) (message : String)
  /-- Host code cleared the record. -/
  | cleared
  /-- Host code installed a listener or removed the one it had. -/
  | listening (listener : Option (Listener ν))

/-- What a command means for the error log if it succeeds. -/
def Command.happening? : Command ν → Option (Happening ν)
  | .raise status message => some (.raised status message)
  | .clearError => some .cleared
  | .setListener listener => some (.listening listener)
  | .push _ | .pop _ | .setTop _ | .setGlobal _ | .getGlobal _ | .load _ | .loadFile _
  | .saveFile _ | .setLimits _ | .writeFile _ _ => none

def Control.happening? : Control ν → Option (Happening ν)
  | .host (.act command _) => command.happening?
  | _ => none

/-- What a reply means for the error log, where a success means `onSuccess`. -/
def Reply.happening? (onSuccess : Option (Happening ν)) : Reply → Option (Happening ν)
  | .error failure => some (.failed failure)
  | .ok () => onSuccess

/-- What happens in the next step. -/
noncomputable def Config.happens (c : Config ν) : List (Happening ν) :=
  (c.reply?.bind fun reply ↦ reply.happening? c.control.happening?).toList

/-- What happens in `n` steps, in order. -/
noncomputable def Progress.happenings : Nat → Progress ν → List (Happening ν)
  | n + 1, .more config => config.happens ++ config.step.happenings n
  | _, _ => []

@[simp] theorem Progress.happenings_halted (n : Nat) (status : Status) (w : World ν) :
    (halted status w).happenings n = [] := by
  cases n <;> rfl

/-! ## The law -/

namespace Happening

/-- The status and the text of a failure. -/
def report? : Happening ν → Option ErrorRecord
  | .failed failure => some ⟨failure.status, failure.message⟩
  | .raised status message => some ⟨status, message⟩
  | .cleared | .listening _ => none

def isCleared : Happening ν → Bool
  | .cleared => true
  | .failed _ | .raised _ _ | .listening _ => false

/-- The listener afterwards. -/
def listener (installed : Option (Listener ν)) : Happening ν → Option (Listener ν)
  | .listening listener => listener
  | .failed _ | .raised _ _ | .cleared => installed

/-- What the listener makes of a failure, if one is installed. -/
def firing? (installed : Option (Listener ν)) (h : Happening ν) : Option ν := do
  let listener ← installed
  let report ← h.report?
  return listener report.message

end Happening

/-- The last failure that came after the record was last cleared. -/
def lastReport (happenings : List (Happening ν)) : Option ErrorRecord :=
  (happenings.reverse.takeWhile fun h ↦ !h.isCleared).findSome? Happening.report?

/-- What the listeners make of all this, one firing for each failure that finds one installed. -/
def firings (installed : Option (Listener ν)) : List (Happening ν) → List ν
  | [] => []
  | h :: happenings => (h.firing? installed).toList ++ firings (h.listener installed) happenings

namespace Event

def heard? : Event ν → Option ν
  | .heard note => some note
  | .logged _ | .noted _ => none

def report? : Event ν → Option ErrorRecord
  | .logged (.failed status message) => some ⟨status, message⟩
  | _ => none

end Event

/-- What listeners were told. -/
def heard (journal : Array (Event ν)) : List ν :=
  journal.toList.filterMap Event.heard?

/-- The failures that were noted in the log. -/
def reported (journal : Array (Event ν)) : List ErrorRecord :=
  journal.toList.filterMap Event.report?

/-- The world that a step has led to. -/
def Progress.world : Progress ν → World ν
  | .more c => c.world
  | .halted _ w => w

/-! ## Writing to the log -/

/-- The part of a world to which failures are written. -/
structure ErrorLog (ν : Type) where
  errors : ErrorState ν
  journal : Array (Event ν)

def World.errorLog (w : World ν) : ErrorLog ν :=
  ⟨w.machine.errors, w.journal⟩

/-- The record afterwards. -/
def Happening.record (earlier : Option ErrorRecord) (h : Happening ν) : Option ErrorRecord :=
  if h.isCleared then none else h.report?.or earlier

/-- One log becomes the other by what happens. -/
structure ErrorLog.Follows (log : ErrorLog ν) (happenings : List (Happening ν))
    (log' : ErrorLog ν) : Prop where
  record : log'.errors.record = happenings.foldl Happening.record log.errors.record
  listener : log'.errors.listener = happenings.foldl Happening.listener log.errors.listener
  heard : heard log'.journal = heard log.journal ++ firings log.errors.listener happenings
  reported : reported log'.journal
    = reported log.journal ++ happenings.filterMap Happening.report?

theorem firings_singleton {happening : Happening ν} {report : ErrorRecord}
    (hreport : happening.report? = some report) (installed : Option (Listener ν)) :
    firings installed [happening]
      = (installed.map fun hear ↦ hear report.message).toList := by
  cases installed with
  | none => rfl
  | some hear => simp [firings, Happening.firing?, hreport]

theorem firings_append (installed : Option (Listener ν)) (first second : List (Happening ν)) :
    firings installed (first ++ second)
      = firings installed first ++ firings (first.foldl Happening.listener installed) second := by
  induction first generalizing installed with
  | nil => rfl
  | cons h first ih => simp [firings, ih]

/-- The record is kept up to date one happening after the other. -/
theorem foldl_record (happenings : List (Happening ν)) :
    happenings.foldl Happening.record none = lastReport happenings := by
  suffices h : ∀ l : List (Happening ν), l.reverse.foldl Happening.record none
      = (l.takeWhile fun h ↦ !h.isCleared).findSome? Happening.report? by
    have := h happenings.reverse
    rwa [List.reverse_reverse] at this
  intro l
  induction l with
  | nil => rfl
  | cons h l ih =>
    rw [List.reverse_cons, List.foldl_append, ih, List.foldl_cons, List.foldl_nil,
      Happening.record, List.takeWhile_cons]
    cases h with
    | cleared => rfl
    | listening listener => rfl
    | failed failure => rfl
    | raised status message => rfl

namespace ErrorLog

variable {log log' log'' : ErrorLog ν}

theorem Follows.trans {first second : List (Happening ν)} (h : log.Follows first log')
    (h' : log'.Follows second log'') : log.Follows (first ++ second) log'' where
  record := by rw [h'.record, h.record, List.foldl_append]
  listener := by rw [h'.listener, h.listener, List.foldl_append]
  heard := by rw [h'.heard, h.heard, h.listener, firings_append, List.append_assoc]
  reported := by rw [h'.reported, h.reported, List.filterMap_append, List.append_assoc]

/-- Nothing happens. -/
theorem follows_refl (log : ErrorLog ν) : log.Follows [] log where
  record := rfl
  listener := rfl
  heard := (List.append_nil _).symm
  reported := (List.append_nil _).symm

theorem follows_push (log : ErrorLog ν) {event : Event ν} (hheard : event.heard? = none)
    (hreport : event.report? = none) : log.Follows [] { log with
      journal := log.journal.push event } where
  record := rfl
  listener := rfl
  heard := by simp [Bytecode.heard, hheard, firings]
  reported := by simp [Bytecode.reported, hreport]

/-- A failure is recorded and announced once. -/
theorem follows_raise (log : ErrorLog ν) (h : Happening ν) {report : ErrorRecord}
    (hreport : h.report? = some report) :
    log.Follows [h] ⟨log.errors.raise report.status report.message,
      log.journal ++ log.errors.announcements report.status report.message⟩ := by
  have hcleared : h.isCleared = false := by cases h <;> first | rfl | cases hreport
  have hlistener : h.listener log.errors.listener = log.errors.listener := by
    cases h <;> first | rfl | cases hreport
  exact {
    record := by simp [Happening.record, hcleared, hreport, ErrorState.raise]
    listener := hlistener.symm
    heard := by
      cases hinstalled : log.errors.listener <;>
        simp [Bytecode.heard, ErrorState.announcements, List.filterMap_cons, Event.heard?, firings,
          Happening.firing?, hinstalled, hreport]
    reported := by
      cases hinstalled : log.errors.listener <;>
        simp [Bytecode.reported, ErrorState.announcements, List.filterMap_cons, Event.report?,
          hinstalled, hreport] }

theorem follows_clear (log : ErrorLog ν) :
    log.Follows [.cleared] { log with errors := log.errors.clear } where
  record := rfl
  listener := rfl
  heard := by simp [firings, Happening.firing?, Happening.report?]
  reported := by simp [Happening.report?]

theorem follows_setListener (log : ErrorLog ν) (listener : Option (Listener ν)) :
    log.Follows [.listening listener] { log with errors := log.errors.setListener listener } where
  record := rfl
  listener := rfl
  heard := by simp [firings, Happening.firing?, Happening.report?]
  reported := by simp [Happening.report?]

end ErrorLog

end Bytecode
