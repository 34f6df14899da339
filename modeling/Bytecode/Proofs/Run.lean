import Bytecode.Machine.Step

/-!
# Runs of the machine

What the machine does over many steps: which configurations it reaches, which states embedding code
can ever see, and what it means that a call returns.

## When a call returns

A call is made by host code that goes on with `resume reply` once it has a reply. The machine must
not look at `resume`, nor at the open calls below. So a call *returns* `reply` in the world `w'` if,
whatever `resume` and the open calls are, the machine reaches `w'` with `resume reply` to execute
next. Taking for `resume` a program that tells two replies apart and ends at once shows that a call
returns in one way only (`Returns.unique`), although steps are never counted.
-/

namespace Bytecode

variable {ν : Type}

/-! ## Many steps -/

/-- `n` steps more, or fewer if the outermost program is done before. -/
def Progress.after : Nat → Progress ν → Progress ν
  | n + 1, .more config => config.step.after n
  | _, progress => progress

namespace Progress

@[simp] theorem after_zero (p : Progress ν) : p.after 0 = p := by
  cases p <;> rfl

@[simp] theorem after_halted (n : Nat) (status : Status) (w : World ν) :
    (halted status w).after n = halted status w := by
  cases n <;> rfl

theorem after_more_succ (n : Nat) (c : Config ν) : (more c).after (n + 1) = c.step.after n := rfl

theorem after_add (m n : Nat) (p : Progress ν) : p.after (m + n) = (p.after m).after n := by
  induction m generalizing p with
  | zero => rw [Nat.zero_add, after_zero]
  | succ m ih =>
    cases p with
    | more c => rw [Nat.add_right_comm, after_more_succ, after_more_succ, ih]
    | halted status w => simp

end Progress

/-! ## Calls of host functions -/

/-- A call of a host function: its name, its arguments, and whether bytecode made it. -/
structure HostEntry where
  name : String
  arguments : List Value
  fromCode : Bool
  deriving DecidableEq, Repr

def Caller.isCode : Caller ν → Bool
  | .program _ => false
  | .code _ _ => true

/-- The host function that has just been entered, where `before` calls were open a step ago. A call
that was open already does not count. -/
def Config.entered? (before : Nat) (c : Config ν) : Option HostEntry :=
  match c.control, c.calls with
  | .host _, call :: calls =>
    if before ≤ calls.length then
      some ⟨call.name, c.world.machine.stack.window, call.caller.isCode⟩
    else none
  | _, _ => none

/-- The host function that a step enters. -/
def Config.enters? (c : Config ν) : Option HostEntry :=
  match c.step with
  | .more c' => c'.entered? c.calls.length
  | .halted _ _ => none

/-- The host functions that are entered in `n` steps, in order. -/
def Progress.entries : Nat → Progress ν → List HostEntry
  | n + 1, .more config => config.enters?.toList ++ config.step.entries n
  | _, _ => []

/-! ## Reaching -/

/-- Running out of steps aside, `run` is what many steps lead to. -/
theorem Config.run_eq_some_iff {n : Nat} {c : Config ν} {status : Status} {w : World ν} :
    c.run n = some (status, w) ↔ (Progress.more c).after n = .halted status w := by
  induction n generalizing c with
  | zero => simp [Config.run]
  | succ n ih =>
    rw [Config.run, Progress.after_more_succ]
    cases c.step with
    | more c' => exact ih
    | halted status' w' => simp

/-- The machine gets from one configuration to another. -/
def Config.Reaches (c c' : Config ν) : Prop :=
  ∃ n, (Progress.more c).after n = .more c'

namespace Config.Reaches

variable {c c' : Config ν}

theorem refl (c : Config ν) : c.Reaches c :=
  ⟨0, rfl⟩

theorem trans {d : Config ν} (h : c.Reaches c') (h' : c'.Reaches d) : c.Reaches d := by
  obtain ⟨m, hm⟩ := h
  obtain ⟨n, hn⟩ := h'
  exact ⟨m + n, by rw [Progress.after_add, hm, hn]⟩

theorem step (h : c.step = .more c') : c.Reaches c' :=
  ⟨1, by rw [Progress.after_more_succ, h, Progress.after_zero]⟩

/-- What holds at the start and is kept by every step holds of all that is reached. -/
theorem induction {P : Config ν → Prop} (h : c.Reaches c') (start : P c)
    (next : ∀ d d', P d → d.step = .more d' → P d') : P c' := by
  obtain ⟨n, hn⟩ := h
  induction n generalizing c with
  | zero =>
    cases hn
    exact start
  | succ n ih =>
    rw [Progress.after_more_succ] at hn
    cases hstep : c.step with
    | more d =>
      rw [hstep] at hn
      exact ih (next c d start hstep) hn
    | halted status w => simp [hstep] at hn

/-- A machine that halts soon after halts in one way only. -/
theorem halted_unique {d d' : Config ν} {status status' : Status} {w w' : World ν}
    (h : c.Reaches d) (h' : c.Reaches d') (hd : d.step = .halted status w)
    (hd' : d'.step = .halted status' w') : status = status' ∧ w = w' := by
  obtain ⟨m, hm⟩ := h
  obtain ⟨n, hn⟩ := h'
  -- Both are what becomes of `c` in `m + n + 1` steps, since a machine that has halted stays so.
  have hm' : (Progress.more c).after (m + (1 + n)) = .halted status w := by
    rw [Progress.after_add, hm, Progress.after_add, Progress.after_more_succ, hd]
    simp
  have hn' : (Progress.more c).after (n + (1 + m)) = .halted status' w' := by
    rw [Progress.after_add, hn, Progress.after_add, Progress.after_more_succ, hd']
    simp
  have hsum : m + (1 + n) = n + (1 + m) := by omega
  rw [hsum, hn'] at hm'
  cases hm'
  exact ⟨rfl, rfl⟩

/-- All that a machine comes through before it halts leads there. -/
theorem of_halted {d : Config ν} {status : Status} {w : World ν} (h : c.Reaches c')
    (h' : c.Reaches d) (hd : d.step = .halted status w) : c'.Reaches d := by
  obtain ⟨m, hm⟩ := h
  obtain ⟨n, hn⟩ := h'
  rcases Nat.lt_or_ge n m with hlt | hle
  · -- A machine that has halted is in no configuration any more.
    obtain ⟨k, rfl⟩ := Nat.exists_eq_add_of_lt hlt
    rw [Nat.add_assoc, Progress.after_add, hn, Progress.after_more_succ, hd,
      Progress.after_halted] at hm
    cases hm
  · obtain ⟨k, rfl⟩ := Nat.exists_eq_add_of_le hle
    rw [Progress.after_add, hm] at hn
    exact ⟨k, hn⟩

end Config.Reaches

/-! ## Returning -/

/-- The code that starts as `start` says comes back with `reply` in the world `w'`, whatever it was
called from. -/
def Returns (start : (Reply → HostProgram ν) → List (HostCall ν) → Config ν) (reply : Reply)
    (w' : World ν) : Prop :=
  ∀ resume calls, (start resume calls).Reaches ⟨w', .host (resume reply), calls⟩

theorem Returns.unique {start : (Reply → HostProgram ν) → List (HostCall ν) → Config ν}
    {reply reply' : Reply} {w w' : World ν} (h : Returns start reply w)
    (h' : Returns start reply' w') : reply = reply' ∧ w = w' := by
  classical
  -- A program whose status tells `reply` from every other reply.
  let resume : Reply → HostProgram ν := fun r ↦
    .done (if r = reply then .ok else .runtimeError)
  obtain ⟨hstatus, hworld⟩ := (h resume []).halted_unique (h' resume []) rfl rfl
  refine ⟨?_, hworld⟩
  refine Classical.byContradiction fun hne ↦ ?_
  simp [Ne.symm hne] at hstatus

namespace World

/-- A call of `name` on the top `arguments` values of the window returns. -/
def CallReturns (w : World ν) (name : String) (arguments : Nat) : Reply → World ν → Prop :=
  Returns fun resume calls ↦ ⟨w, .host (.call name arguments resume), calls⟩

/-- A call of the function `index` of a chunk returns. -/
def CodeReturns (w : World ν) (name : String) (chunk : Chunk) (index arguments : Nat) :
    Reply → World ν → Prop :=
  Returns fun resume calls ↦ Config.callCode w calls name chunk index arguments resume

end World

/-! ## Reachable configurations -/

/-- A configuration that embedding code can bring about: it starts with a fresh machine and runs any
programs on it, one after the other. What happens to the files and to the journal in between is not
the machine's business. -/
inductive Config.Reachable : Config ν → Prop where
  | fresh (limits : Limits) (files : Files) (journal : Array (Event ν)) (program : HostProgram ν) :
    Reachable (.start ⟨{ limits }, files, journal⟩ program)
  | step {c c' : Config ν} (h : Reachable c) (hstep : c.step = .more c') : Reachable c'
  | restart {c : Config ν} {status : Status} {w : World ν} (h : Reachable c)
    (hstep : c.step = .halted status w) (files : Files) (journal : Array (Event ν))
    (program : HostProgram ν) : Reachable (.start ⟨w.machine, files, journal⟩ program)

end Bytecode
