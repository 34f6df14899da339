import Bytecode.Proofs.Verify.Depth

/-!
# The depth pass is exact

The pass gives each place a depth once and does not follow a path beyond its first error. Still it
misses nothing and makes nothing up: it finds a function in order just when every instruction fits
wherever it is visited and no place is visited with two depths, and each error it reports is one of
these two faults, at a place and with depths at which it occurs (`DepthFault`).

## The invariant

Whatever the pass holds is a visit: the depths it has given, the pairs that are pending, and the
depths that its errors name (`DepthPass.Faithful`). A round only passes on depths along the edges
that define visits, so no order in which the places are taken can break this.

With this, both halves are short. A function in order has no faults to report. If on the other hand
there is no error in the end, the depths given are those of all visits, and a place has one depth.
-/

namespace Bytecode.Verify

/-- The error is a fault of this function: it names a place that can be reached with a depth at
which it occurs. -/
def DepthFault (function : Nat) (code : Array Instruction) : VerifyError → Prop
  | .stackUnderflow function' pc =>
    function' = function ∧ ∃ depth i, Visits code pc depth ∧ code[pc]? = some i ∧
      depth < i.effect.pops
  | .stackTooDeep function' pc after =>
    function' = function ∧ ∃ depth i, Visits code pc depth ∧ code[pc]? = some i ∧
      i.effect.pops ≤ depth ∧ after = depth - i.effect.pops + i.effect.pushes ∧ 1024 < after
  | .stackHeightMismatch function' pc expected found =>
    function' = function ∧ expected ≠ found ∧ Visits code pc expected ∧ Visits code pc found
  | _ => False

/-- Every instruction fits wherever it is visited, and no place is visited with two depths. -/
def Consistent (code : Array Instruction) : Prop :=
  (∀ pc depth i, Visits code pc depth → code[pc]? = some i →
    i.effect.pops ≤ depth ∧ depth - i.effect.pops + i.effect.pushes ≤ 1024) ∧
  ∀ pc depth depth', Visits code pc depth → Visits code pc depth' → depth = depth'

section Faults

variable {function pc depth size : Nat} {i : Instruction} {code : Array Instruction}
  {e : VerifyError}

/-- A visit that goes wrong is a fault. -/
theorem depthFault_of_visit (hvisits : Visits code pc depth) (hi : code[pc]? = some i)
    (he : visit function size pc depth i = .error e) : DepthFault function code e := by
  rw [visit] at he
  dsimp only at he
  split at he
  · rename_i hpops
    cases he
    exact ⟨rfl, depth, i, hvisits, hi, hpops⟩
  rename_i hpops
  split at he
  · rename_i hafter
    cases he
    exact ⟨rfl, depth, i, hvisits, hi, Nat.le_of_not_lt hpops, rfl, hafter⟩
  · cases he

/-- There is nothing to report of a function in order. -/
theorem not_depthFault (h : Consistent code) : ¬DepthFault function code e := by
  obtain ⟨hfits, hunique⟩ := h
  intro hfault
  cases e with
  | stackUnderflow function' pc =>
    obtain ⟨-, depth, i, hvisits, hi, hlt⟩ := hfault
    have := (hfits pc depth i hvisits hi).1
    omega
  | stackTooDeep function' pc after =>
    obtain ⟨-, depth, i, hvisits, hi, -, hafter, hlt⟩ := hfault
    have := (hfits pc depth i hvisits hi).2
    omega
  | stackHeightMismatch function' pc expected found =>
    obtain ⟨-, hne, hexpected, hfound⟩ := hfault
    exact hne (hunique pc expected found hexpected hfound)
  | _ => exact hfault

end Faults

/-! ## The invariant -/

namespace DepthPass

/-- All that the pass holds are visits. -/
structure Faithful (function : Nat) (code : Array Instruction) (pass : DepthPass) : Prop where
  known {pc depth : Nat} : pass.depthAt[pc]? = some (some depth) → Visits code pc depth
  pending {pc depth : Nat} : (pc, depth) ∈ pass.pending → Visits code pc depth
  errors {e : VerifyError} : e ∈ pass.errors → DepthFault function code e

theorem faithful_start (function : Nat) (code : Array Instruction) :
    Faithful function code (.start code) where
  known hknown := by
    rw [DepthPass.start, Array.getElem?_replicate] at hknown
    split at hknown <;> cases hknown
  pending hmem := by
    cases List.mem_singleton.mp hmem
    exact .start
  errors hmem := absurd hmem (Array.not_mem_empty _)

section Step

variable {function pc depth : Nat} {i : Instruction} {code : Array Instruction}
  {depthAt : Array (Option Nat)} {pending : List (Nat × Nat)} {errors : Array VerifyError}

/-- A place that gets the depth it is visited with joins the others. -/
theorem Faithful.known_assign
    (h : Faithful function code ⟨depthAt, (pc, depth) :: pending, errors⟩)
    (hnone : depthAt[pc]? = some none) {pc' depth' : Nat}
    (hknown : (depthAt.setIfInBounds pc (some depth))[pc']? = some (some depth')) :
    Visits code pc' depth' := by
  obtain ⟨hlt, -⟩ := Array.getElem?_eq_some_iff.mp hnone
  by_cases hpc : pc = pc'
  · subst hpc
    rw [Array.getElem?_setIfInBounds_self_of_lt hlt] at hknown
    cases hknown
    exact h.pending List.mem_cons_self
  · rw [Array.getElem?_setIfInBounds_ne hpc] at hknown
    exact h.known hknown

theorem Faithful.errors_push {pass : DepthPass} {e : VerifyError}
    (h : Faithful function code pass) (he : DepthFault function code e) :
    ∀ {e' : VerifyError}, e' ∈ pass.errors.push e → DepthFault function code e' := by
  intro e' hmem
  rcases Array.mem_push.mp hmem with hmem | rfl
  · exact h.errors hmem
  · exact he

/-- Every round keeps the invariant. -/
theorem Faithful.step {pass : DepthPass} (hinv : Inv code pass)
    (h : Faithful function code pass) : Faithful function code (pass.step function code) := by
  obtain ⟨depthAt, pending, errors⟩ := pass
  rcases pending with _ | ⟨⟨pc, depth⟩, pending⟩
  · exact h
  have hvisits : Visits code pc depth := h.pending List.mem_cons_self
  have htail : ∀ {pc' depth'}, (pc', depth') ∈ pending → Visits code pc' depth' :=
    fun hmem ↦ h.pending (List.mem_cons_of_mem _ hmem)
  have hround := hinv.round function
  generalize DepthPass.step function code ⟨depthAt, (pc, depth) :: pending, errors⟩ = next
    at hround ⊢
  cases hround with
  | known => exact ⟨h.known, htail, h.errors⟩
  | @clash known hknown hne =>
    have hfault : DepthFault function code (.stackHeightMismatch function pc known depth) :=
      ⟨rfl, hne, h.known hknown, hvisits⟩
    exact ⟨h.known, htail, h.errors_push hfault⟩
  | visit hnone hi hfits =>
    refine ⟨h.known_assign hnone, fun {pc' depth'} hmem ↦ ?_, h.errors⟩
    rcases List.mem_append.mp hmem with hmem | hmem
    · -- The pairs that are added are the edges by which visits go on.
      obtain ⟨next, hnext, heq⟩ := List.mem_map.mp (List.mem_reverse.mp hmem)
      cases heq
      exact hvisits.next hi hfits hnext
    · exact htail hmem
  | fault hnone hi he =>
    exact ⟨h.known_assign hnone, htail, h.errors_push (depthFault_of_visit hvisits hi he)⟩

end Step

/-- All rounds together keep it. -/
theorem Faithful.run {function : Nat} {code : Array Instruction} (hinside : Inside code)
    (rounds : Nat) {pass : DepthPass} (hinv : Inv code pass) (h : Faithful function code pass) :
    Faithful function code (pass.run function code rounds) := by
  induction rounds generalizing pass with
  | zero => exact h
  | succ rounds ih =>
    rw [DepthPass.run]
    split
    · exact h
    · exact ih (hinv.step function hinside) (h.step hinv)

theorem faithful_final {code : Array Instruction} (function : Nat) (hinside : Inside code)
    (hsize : 0 < code.size) : Faithful function code (final function code) :=
  (faithful_start function code).run hinside _ (inv_start hsize)

end DepthPass

/-! ## Exactness -/

section Exact

variable {f : FunctionDef} {function : Nat}

theorem depthFault_of_mem (hinside : Inside f.code) {e : VerifyError}
    (he : e ∈ checkFunctionDepth f function) : DepthFault function f.code e := by
  rcases Nat.eq_zero_or_pos f.code.size with hsize | hsize
  · rw [checkFunctionDepth, if_pos (Array.isEmpty_iff_size_eq_zero.mpr hsize)] at he
    cases he
  · rw [checkFunctionDepth_eq function hsize] at he
    exact (DepthPass.faithful_final function hinside hsize).errors (Array.mem_toList_iff.mp he)

/-- Without code there is nothing to visit beyond the start. -/
theorem consistent_of_size_eq_zero {code : Array Instruction} (h : code.size = 0) :
    Consistent code := by
  have hnone : ∀ pc : Nat, code[pc]? = none := fun pc ↦ Array.getElem?_eq_none (by omega)
  have hzero : ∀ {pc depth}, Visits code pc depth → depth = 0 := by
    intro pc depth hvisits
    cases hvisits with
    | start => rfl
    | next _ hi =>
      rw [hnone] at hi
      cases hi
  refine ⟨fun pc depth i _ hi ↦ ?_, fun pc depth depth' hvisits hvisits' ↦ ?_⟩
  · rw [hnone] at hi
    cases hi
  · rw [hzero hvisits, hzero hvisits']

theorem consistent_of_passes (hinside : Inside f.code) (hsize : 0 < f.code.size)
    (h : checkFunctionDepth f function = []) : Consistent f.code := by
  refine ⟨fun pc depth i hvisits hi ↦ ?_, fun pc depth depth' hvisits hvisits' ↦ ?_⟩
  · obtain ⟨i', hi', hfits⟩ := fits_of_visits hinside hsize h hvisits
    rw [hi] at hi'
    cases hi'
    exact hfits
  · obtain ⟨hinv, hpending⟩ := DepthPass.inv_final function hinside hsize
    rw [checkFunctionDepth_eq function hsize] at h
    have herrors := Array.toList_eq_nil_iff.mp h
    have hdepth := hinv.depthAt_of_visits hpending herrors hvisits
    rw [hinv.depthAt_of_visits hpending herrors hvisits'] at hdepth
    cases hdepth
    rfl

/-- Where every instruction continues inside the code, visits stay there. -/
theorem lt_size_of_visits {code : Array Instruction} (hinside : Inside code) (hsize : 0 < code.size)
    {pc depth : Nat} (hvisits : Visits code pc depth) : pc < code.size := by
  cases hvisits with
  | start => exact hsize
  | next _ hi _ hpc => exact hinside _ _ hi _ hpc

/-- The depth pass accepts exactly the functions in which every instruction fits wherever it is
visited and no place is visited with two depths, and every error that it reports is such a fault. -/
theorem depth_pass_is_exact (function : Nat) (hjumps : JumpsInside f.code) :
    (checkFunctionDepth f function = [] ↔ Consistent f.code) ∧
      (∀ e ∈ checkFunctionDepth f function, DepthFault function f.code e) ∧
      (0 < f.code.size → ∀ pc depth, Visits f.code pc depth → pc < f.code.size) := by
  have hinside := inside_of_jumps hjumps
  refine ⟨⟨fun h ↦ ?_, fun h ↦ ?_⟩, fun e he ↦ depthFault_of_mem hinside he,
    fun hsize pc depth hvisits ↦ lt_size_of_visits hinside hsize hvisits⟩
  · rcases Nat.eq_zero_or_pos f.code.size with hsize | hsize
    · exact consistent_of_size_eq_zero hsize
    · exact consistent_of_passes hinside hsize h
  · refine List.eq_nil_iff_forall_not_mem.mpr fun e he ↦ ?_
    exact not_depthFault h (depthFault_of_mem hinside he)

end Exact

/-! ## A loop that grows the stack -/

/-- A function that pushes a constant and starts again. -/
def growing : FunctionDef :=
  ⟨"grow", 0, 0, #[{ opcode := .const }, { opcode := .jump, arg1 := 0 }]⟩

theorem jumpsInside_growing : JumpsInside growing.code := by
  intro pc i hi _
  rcases pc with _ | _ | pc
  · cases hi
    decide
  · cases hi
    decide
  · cases hi

theorem depth_pass_is_exact_growing :
    JumpsInside growing.code ∧
      checkFunctionDepth growing 0 = [.stackHeightMismatch 0 0 0 1] ∧
      Visits growing.code 0 0 ∧ Visits growing.code 0 1 ∧ ¬Consistent growing.code := by
  have hcheck : checkFunctionDepth growing 0 = [.stackHeightMismatch 0 0 0 1] := by decide
  obtain ⟨hexact, hreal, -⟩ := depth_pass_is_exact 0 jumpsInside_growing
  obtain ⟨-, -, hexpected, hfound⟩ := hreal (.stackHeightMismatch 0 0 0 1) (by simp [hcheck])
  refine ⟨jumpsInside_growing, hcheck, hexpected, hfound, fun hconsistent ↦ ?_⟩
  have hnil := hexact.mpr hconsistent
  rw [hcheck] at hnil
  cases hnil

end Bytecode.Verify
