import Bytecode.Proofs.Happenings

/-!
# Histories of sessions

A session starts with a fresh machine, and embedding code runs any programs on it, one after the
other. Whatever can be observed of a single step can be collected over the whole session: a
*history* is the list of what was observed so far, in order, at any nesting of host code and
bytecode. What holds of a machine because of its past is said of its history.
-/

namespace Bytecode.Config

variable {ν α : Type} {observe : Config ν → Option α} {seen : List α} {c : Config ν}

/-- The session has come to this configuration, and `observe` saw this much in its steps. -/
inductive History (observe : Config ν → Option α) : List α → Config ν → Prop where
  | fresh (limits : Limits) (files : Files) (journal : Array (Event ν)) (program : HostProgram ν) :
    History observe [] (.start ⟨{ limits }, files, journal⟩ program)
  | step {seen : List α} {c c' : Config ν} (h : History observe seen c)
    (hstep : c.step = .more c') : History observe (seen ++ (observe c).toList) c'
  | restart {seen : List α} {c : Config ν} {status : Status} {w : World ν}
    (h : History observe seen c) (hstep : c.step = .halted status w) (files : Files)
    (journal : Array (Event ν)) (program : HostProgram ν) :
    History observe (seen ++ (observe c).toList) (.start ⟨w.machine, files, journal⟩ program)

theorem History.reachable (h : c.History observe seen) : c.Reachable := by
  induction h with
  | fresh limits files journal program => exact .fresh limits files journal program
  | step _ hstep ih => exact ih.step hstep
  | restart _ hstep files journal program ih => exact ih.restart hstep files journal program

/-- Whatever embedding code can bring about has a history. -/
theorem Reachable.exists_history (h : c.Reachable) (observe : Config ν → Option α) :
    ∃ seen, c.History observe seen := by
  induction h with
  | fresh limits files journal program => exact ⟨_, .fresh limits files journal program⟩
  | step _ hstep ih =>
    obtain ⟨seen, hseen⟩ := ih
    exact ⟨_, hseen.step hstep⟩
  | restart _ hstep files journal program ih =>
    obtain ⟨seen, hseen⟩ := ih
    exact ⟨_, hseen.restart hstep files journal program⟩

/-- What is to be shown of the machine alone, since files and journal are others after a restart. -/
theorem History.induction_machine {P : List α → Machine ν → Prop}
    (fresh : ∀ limits, P [] { limits })
    (step : ∀ {seen : List α} {c : Config ν}, c.Reachable → P seen c.world.machine →
      P (seen ++ (observe c).toList) c.step.world.machine)
    (h : c.History observe seen) : P seen c.world.machine := by
  induction h with
  | fresh limits files journal program => exact fresh limits
  | step hc hstep ih =>
    have hnext := step hc.reachable ih
    rwa [hstep] at hnext
  | restart hc hstep files journal program ih =>
    have hnext := step hc.reachable ih
    rwa [hstep] at hnext

/-- A step in which nothing is observed adds nothing to the history. -/
theorem History.step_unseen {c' : Config ν} (h : c.History observe seen)
    (hstep : c.step = .more c') (hnone : observe c = none) : c'.History observe seen := by
  have hnext := h.step hstep
  rwa [hnone, Option.toList_none, List.append_nil] at hnext

end Bytecode.Config
