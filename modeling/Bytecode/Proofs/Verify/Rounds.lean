import Mathlib.Data.List.Nodup
import Mathlib.Data.Nat.Find
import Bytecode.Proofs.Verify.Exactness

/-!
# The rounds of the depth pass

The pass takes one pending place a round. Loops in the code make it meet the same places again and
again, and a function may be wrong in many places at once. Still the pass is over after at most
`2 * n + 1` rounds on `n` instructions, it never looks outside the code, and what it notes down it
notes down once: a place gets one depth for good, and it is blamed for not fitting at most once.

## Counting rounds

`DepthPass.run` makes as many rounds as it is allowed, unless nothing is pending before. So
`DepthPass.taking` gives the pass as it is after any number of rounds, and a pass that nobody bounds
is over where more rounds make no difference.

That a place has one depth follows from what a single round may do to the table of depths
(`depthAt_step`): it fills one empty entry, or it leaves the table alone. A place is blamed in the
round in which it gets its depth (`Blames`), so this happens once as well.
-/

namespace Bytecode

/-- The place of an instruction that takes more operands than there are or leaves too many. -/
def VerifyError.misfit? : VerifyError → Option Nat
  | .stackUnderflow _ pc | .stackTooDeep _ pc _ => some pc
  | _ => none

namespace Verify

/-- A visit that goes wrong blames the place that is visited. -/
theorem misfit?_of_visit {function size pc depth : Nat} {i : Instruction} {e : VerifyError}
    (h : visit function size pc depth i = .error e) : e.misfit? = some pc := by
  rw [visit] at h
  dsimp only at h
  split at h
  · cases h
    rfl
  split at h
  · cases h
    rfl
  · cases h

namespace DepthPass

variable {function : Nat} {code : Array Instruction} {pass : DepthPass}

/-! ## Rounds -/

theorem step_of_pending_eq_nil (h : pass.pending = []) : pass.step function code = pass := by
  obtain ⟨depthAt, pending, errors⟩ := pass
  cases h
  rfl

theorem run_of_pending_eq_nil (h : pass.pending = []) (rounds : Nat) :
    pass.run function code rounds = pass := by
  cases rounds with
  | zero => rfl
  | succ rounds => simp only [run, h]

theorem run_succ (rounds : Nat) (pass : DepthPass) :
    pass.run function code (rounds + 1) = (pass.step function code).run function code rounds := by
  cases hpending : pass.pending with
  | nil =>
    rw [step_of_pending_eq_nil hpending, run_of_pending_eq_nil hpending,
      run_of_pending_eq_nil hpending]
  | cons place pending => simp only [run, hpending]

/-- A round more is also a round at the end. -/
theorem run_succ_eq_step (rounds : Nat) (pass : DepthPass) :
    pass.run function code (rounds + 1) = (pass.run function code rounds).step function code := by
  induction rounds generalizing pass with
  | zero => rw [run_succ, run, run]
  | succ rounds ih => rw [run_succ, ih, ← run_succ]

/-- The pass over a function after so many rounds, or when it is over. -/
def taking (function : Nat) (code : Array Instruction) (rounds : Nat) : DepthPass :=
  (start code).run function code rounds

theorem taking_succ (rounds : Nat) :
    taking function code (rounds + 1) = (taking function code rounds).step function code :=
  run_succ_eq_step rounds (start code)

/-- When the pass is over, it is over. -/
theorem taking_eq_of_le {rounds more : Nat} (hle : rounds ≤ more)
    (hover : (taking function code rounds).pending = []) :
    taking function code more = taking function code rounds := by
  induction more, hle using Nat.le_induction with
  | base => rfl
  | succ more _ ih => rw [taking_succ, ih, step_of_pending_eq_nil hover]

theorem inv_taking (hinside : Inside code) (hsize : 0 < code.size) (rounds : Nat) :
    Inv code (taking function code rounds) := by
  induction rounds with
  | zero => exact inv_start hsize
  | succ rounds ih =>
    rw [taking_succ]
    exact ih.step function hinside

theorem faithful_taking (hinside : Inside code) (hsize : 0 < code.size) (rounds : Nat) :
    Faithful function code (taking function code rounds) :=
  (faithful_start function code).run hinside rounds (inv_start hsize)

/-- A pass that is over after some number of rounds has a round that was its last. -/
theorem exists_last_round {bound : Nat} (hover : (taking function code bound).pending = []) :
    ∃ rounds ≤ bound, (∀ k < rounds, (taking function code k).pending ≠ []) ∧
      ∀ k ≥ rounds, taking function code k = taking function code bound := by
  classical
  have hexists : ∃ k, (taking function code k).pending = [] := ⟨bound, hover⟩
  have hle : Nat.find hexists ≤ bound := Nat.find_min' hexists hover
  have hlast := Nat.find_spec hexists
  refine ⟨Nat.find hexists, hle, fun k hk ↦ Nat.find_min hexists hk, fun k hk ↦ ?_⟩
  rw [taking_eq_of_le hk hlast, taking_eq_of_le hle hlast]

/-! ## The table of depths -/

/-- A round fills an empty entry of the table, or it leaves the table alone. -/
theorem depthAt_step (function : Nat) (code : Array Instruction) (pass : DepthPass) :
    (pass.step function code).depthAt = pass.depthAt ∨
      ∃ pc depth, pass.depthAt[pc]? = some none ∧
        (pass.step function code).depthAt = pass.depthAt.setIfInBounds pc (some depth) := by
  obtain ⟨depthAt, pending, errors⟩ := pass
  rcases pending with _ | ⟨⟨pc, depth⟩, pending⟩
  · exact .inl rfl
  rw [step]
  split
  · exact .inl (by split <;> rfl)
  · rename_i hnone _
    exact .inr ⟨pc, depth, hnone, by split <;> rfl⟩
  · exact .inl rfl

/-- What a round does to an entry: nothing, or it fills it. -/
theorem getElem?_depthAt_step (function : Nat) (code : Array Instruction) (pass : DepthPass)
    (pc : Nat) :
    (pass.step function code).depthAt[pc]? = pass.depthAt[pc]? ∨
      pass.depthAt[pc]? = some none ∧
        ∃ depth, (pass.step function code).depthAt[pc]? = some (some depth) := by
  rcases depthAt_step function code pass with hsame | ⟨filled, depth, hnone, hfilled⟩
  · exact .inl (by rw [hsame])
  by_cases hpc : filled = pc
  · subst hpc
    obtain ⟨hlt, -⟩ := Array.getElem?_eq_some_iff.mp hnone
    exact .inr ⟨hnone, depth, by rw [hfilled, Array.getElem?_setIfInBounds_self_of_lt hlt]⟩
  · exact .inl (by rw [hfilled, Array.getElem?_setIfInBounds_ne hpc])

theorem depthAt_step_of_some {pc depth : Nat} (h : pass.depthAt[pc]? = some (some depth)) :
    (pass.step function code).depthAt[pc]? = some (some depth) := by
  rcases getElem?_depthAt_step function code pass pc with hsame | ⟨hnone, -⟩
  · rw [hsame, h]
  · rw [hnone] at h
    cases h

/-- A depth that was given stays. -/
theorem depthAt_taking_of_le {rounds more pc depth : Nat} (hle : rounds ≤ more)
    (h : (taking function code rounds).depthAt[pc]? = some (some depth)) :
    (taking function code more).depthAt[pc]? = some (some depth) := by
  induction more, hle using Nat.le_induction with
  | base => exact h
  | succ more _ ih =>
    rw [taking_succ]
    exact depthAt_step_of_some ih

/-- The round after `rounds` others changes the entry of `pc`. -/
def Gives (function : Nat) (code : Array Instruction) (rounds pc : Nat) : Prop :=
  (taking function code (rounds + 1)).depthAt[pc]? ≠ (taking function code rounds).depthAt[pc]?

theorem Gives.exists_depth {rounds pc : Nat} (h : Gives function code rounds pc) :
    ∃ depth, (taking function code (rounds + 1)).depthAt[pc]? = some (some depth) := by
  rw [Gives, taking_succ] at h
  rw [taking_succ]
  exact ((getElem?_depthAt_step function code _ pc).resolve_left h).2

theorem Gives.not_lt {rounds later pc : Nat} (h : Gives function code rounds pc)
    (h' : Gives function code later pc) : ¬rounds < later := by
  intro hlt
  obtain ⟨depth, hdepth⟩ := h.exists_depth
  apply h'
  rw [depthAt_taking_of_le hlt hdepth, depthAt_taking_of_le (Nat.le_succ_of_le hlt) hdepth]

/-- A place is given a depth in one round at most. -/
theorem Gives.unique {rounds rounds' pc : Nat} (h : Gives function code rounds pc)
    (h' : Gives function code rounds' pc) : rounds = rounds' :=
  Nat.le_antisymm (Nat.le_of_not_lt (h'.not_lt h)) (Nat.le_of_not_lt (h.not_lt h'))

/-! ## Blame -/

/-- The places that are blamed for not fitting, in order. -/
def misfits (pass : DepthPass) : List Nat :=
  pass.errors.toList.filterMap VerifyError.misfit?

/-- Every place that is blamed has its depth, and no place is blamed twice. -/
structure Blames (pass : DepthPass) : Prop where
  given {pc : Nat} : pc ∈ pass.misfits → ∃ depth, pass.depthAt[pc]? = some (some depth)
  nodup : pass.misfits.Nodup

theorem blames_start (code : Array Instruction) : Blames (.start code) where
  given hmem := absurd hmem List.not_mem_nil
  nodup := List.nodup_nil

theorem misfits_push (depthAt : Array (Option Nat)) (pending : List (Nat × Nat))
    (errors : Array VerifyError) (e : VerifyError) :
    misfits ⟨depthAt, pending, errors.push e⟩
      = misfits ⟨depthAt, pending, errors⟩ ++ e.misfit?.toList := by
  rw [misfits, misfits, Array.toList_push, List.filterMap_append]
  cases he : e.misfit? <;> simp [he]

/-- A round blames nobody, or a place whose entry it fills. -/
theorem misfits_step (function : Nat) (code : Array Instruction) (pass : DepthPass) :
    (pass.step function code).misfits = pass.misfits ∨
      ∃ pc depth, pass.depthAt[pc]? = some none ∧
        (pass.step function code).depthAt[pc]? = some (some depth) ∧
        (pass.step function code).misfits = pass.misfits ++ [pc] := by
  obtain ⟨depthAt, pending, errors⟩ := pass
  rcases pending with _ | ⟨⟨pc, depth⟩, pending⟩
  · exact .inl rfl
  rw [step]
  split
  · left
    split
    · rfl
    · -- A clash of depths is nobody's fault.
      rw [misfits_push]
      exact List.append_nil _
  · rename_i hnone _
    obtain ⟨hlt, -⟩ := Array.getElem?_eq_some_iff.mp hnone
    split
    · rename_i e he
      refine .inr ⟨pc, depth, hnone, Array.getElem?_setIfInBounds_self_of_lt hlt, ?_⟩
      rw [misfits_push, misfit?_of_visit he]
      rfl
    · exact .inl rfl
  · exact .inl rfl

/-- Every round keeps the invariant. -/
theorem Blames.step (h : Blames pass) : Blames (pass.step function code) := by
  have hkept : ∀ {pc}, pc ∈ pass.misfits →
      ∃ depth, (pass.step function code).depthAt[pc]? = some (some depth) := by
    intro pc hmem
    obtain ⟨depth, hdepth⟩ := h.given hmem
    exact ⟨depth, depthAt_step_of_some hdepth⟩
  rcases misfits_step function code pass with hsame | ⟨pc, depth, hnone, hdepth, hblamed⟩
  · rw [← hsame] at hkept
    exact ⟨hkept, by rw [hsame]; exact h.nodup⟩
  -- The place had no depth before this round, so it was not blamed before.
  have hfresh : pc ∉ pass.misfits := by
    intro hmem
    obtain ⟨known, hknown⟩ := h.given hmem
    rw [hnone] at hknown
    cases hknown
  refine ⟨fun {pc'} hmem ↦ ?_, ?_⟩
  · rw [hblamed] at hmem
    rcases List.mem_append.mp hmem with hmem | hmem
    · exact hkept hmem
    · rw [List.mem_singleton.mp hmem]
      exact ⟨depth, hdepth⟩
  · rw [hblamed, ← List.concat_eq_append]
    exact List.Nodup.concat hfresh h.nodup

theorem blames_taking (rounds : Nat) : Blames (taking function code rounds) := by
  induction rounds with
  | zero => exact blames_start code
  | succ rounds ih =>
    rw [taking_succ]
    exact ih.step

end DepthPass

/-! ## The whole pass -/

open DepthPass

variable {f : FunctionDef}

/-- The depth pass is linear. On `n` instructions it takes at most `2 * n + 1` places, all of them
inside the code; a place is given a depth in one round at most, one within the limit, and keeps it;
and a place is blamed for not fitting at most once. -/
theorem depth_pass_is_linear (function : Nat) (hsize : 0 < f.code.size)
    (hjumps : JumpsInside f.code) :
    let pass := taking function f.code
    (∃ rounds ≤ 2 * f.code.size + 1, (∀ k < rounds, (pass k).pending ≠ []) ∧
      (∀ k ≥ rounds, (pass k).pending = [] ∧
        checkFunctionDepth f function = (pass k).errors.toList)) ∧
    (∀ (k pc depth : Nat) rest, (pass k).pending = (pc, depth) :: rest →
      pc < f.code.size ∧ pc < (pass k).depthAt.size) ∧
    (∀ pc k l, Gives function f.code k pc → Gives function f.code l pc → k = l) ∧
    (∀ pc depth k l : Nat, k ≤ l → (pass k).depthAt[pc]? = some (some depth) →
      (pass l).depthAt[pc]? = some (some depth)) ∧
    (∀ pc, ((checkFunctionDepth f function).filterMap VerifyError.misfit?).count pc ≤ 1) ∧
    ∀ pc depth k : Nat, (pass k).depthAt[pc]? = some (some depth) → depth ≤ 1024 := by
  intro pass
  have hinside := inside_of_jumps hjumps
  have hover : (pass (2 * f.code.size + 1)).pending = [] :=
    (inv_final function hinside hsize).2
  have hcheck : checkFunctionDepth f function
      = (pass (2 * f.code.size + 1)).errors.toList := checkFunctionDepth_eq function hsize
  refine ⟨?_, fun k pc depth rest hpending ↦ ?_, fun pc k l ↦ Gives.unique,
    fun pc depth k l ↦ depthAt_taking_of_le, fun pc ↦ ?_, fun pc depth k hdepth ↦ ?_⟩
  · obtain ⟨rounds, hle, hbefore, hafter⟩ := exists_last_round hover
    refine ⟨rounds, hle, hbefore, fun k hk ↦ ?_⟩
    have hsame : pass k = pass (2 * f.code.size + 1) := hafter k hk
    rw [hsame]
    exact ⟨hover, hcheck⟩
  · have hinv := @inv_taking function f.code hinside hsize k
    have hlt : pc < f.code.size :=
      hinv.pending_lt (pc, depth) (by rw [hpending]; exact List.mem_cons_self)
    exact ⟨hlt, by rw [hinv.size_eq]; exact hlt⟩
  · rw [hcheck]
    exact List.nodup_iff_count_le_one.mp (blames_taking _).nodup pc
  · exact ((faithful_taking hinside hsize k).known hdepth).depth_le

/-! ## A loop with nothing to return -/

/-- A function that starts again if its constant is false, and has nothing to return if it is
true. -/
def repeating : FunctionDef :=
  ⟨"repeat", 0, 0, #[{ opcode := .const }, { opcode := .jumpIfFalse, arg1 := 0 },
    { opcode := .ret }]⟩

theorem jumpsInside_repeating : JumpsInside repeating.code := by
  intro pc i hi _
  rcases pc with _ | _ | _ | pc
  · cases hi
    decide
  · cases hi
    decide
  · cases hi
    decide
  · cases hi

theorem depth_pass_is_linear_repeating :
    0 < repeating.code.size ∧ JumpsInside repeating.code ∧
      (taking 0 repeating.code 3).pending = [(0, 0)] ∧
      (∃ rounds ≤ 7, 3 < rounds ∧ (taking 0 repeating.code rounds).pending = []) ∧
      checkFunctionDepth repeating 0 = [.stackUnderflow 0 2] := by
  have hpending : (taking 0 repeating.code 3).pending = [(0, 0)] := by decide
  obtain ⟨⟨rounds, hle, hbefore, hafter⟩, -⟩ :=
    depth_pass_is_linear 0 (by decide) jumpsInside_repeating
  refine ⟨by decide, jumpsInside_repeating, hpending, ⟨rounds, hle, ?_, ?_⟩, by decide⟩
  · refine Nat.lt_of_not_le fun hover ↦ ?_
    rw [(hafter 3 hover).1] at hpending
    cases hpending
  · exact (hafter rounds (Nat.le_refl _)).1

end Verify

end Bytecode
