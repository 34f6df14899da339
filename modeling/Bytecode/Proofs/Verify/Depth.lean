import Bytecode.Verify.Depth

/-!
# The depth pass

What a function that passes the depth pass is known to satisfy. The places a frame can be at, with
the number of operands it then has, are the least set that contains the first instruction with no
operands and follows every instruction to its successors (`Visits`). The pass finds nothing wrong
only if each instruction has what it takes wherever it is visited.

## The invariant

A pair of a place and a depth has been *noticed* if the place has that depth or the pair is still
pending. While there is no error, every place that has its depth fits it and has had its successors
noticed. When nothing is pending the places that have their depth are closed under successors, and
so they contain all visits.

## Why the rounds suffice

A round takes one pending pair. If the place has its depth already nothing is added; otherwise the
place gets one and at most two pairs are added. So the number of pending pairs plus twice the number
of places without a depth goes down in every round, and it starts at `2 * n + 1`.
-/

namespace Bytecode

namespace Instruction

/-- The number of operands after an instruction. -/
def depthAfter (i : Instruction) (depth : Nat) : Nat :=
  depth - i.effect.pops + i.effect.pushes

/-- The instruction has as many operands as it takes and leaves no more than a frame may hold. -/
def Fits (i : Instruction) (depth : Nat) : Prop :=
  i.effect.pops ≤ depth ∧ i.depthAfter depth ≤ Verify.maxOperandDepth

theorem length_successors_le (i : Instruction) (pc size : Nat) :
    (i.successors pc size).length ≤ 2 := by
  have hfollowing : (if pc + 1 < size then [pc + 1] else []).length ≤ 1 := by
    split <;> simp
  rw [successors]
  split
  · simp
  · simp
  · rw [List.length_cons]
    omega
  · omega

theorem following_mem_successors (i : Instruction) {pc size : Nat}
    (hop : i.opcode.isTerminator = false) (hlt : pc + 1 < size) :
    pc + 1 ∈ i.successors pc size := by
  rw [successors, if_pos hlt]
  generalize i.opcode = op at hop
  cases op with
  | ret | jump => cases hop
  | jumpIfFalse => exact List.mem_cons_of_mem _ List.mem_cons_self
  | _ => exact List.mem_cons_self

theorem target_mem_successors (i : Instruction) (hop : i.opcode = .jump ∨ i.opcode = .jumpIfFalse)
    (pc size : Nat) : i.arg1.toNat ∈ i.successors pc size := by
  rw [successors]
  rcases hop with hop | hop
  · rw [hop]
    exact List.mem_cons_self
  · rw [hop]
    exact List.mem_cons_self

end Instruction

namespace Verify

/-- The instruction at `pc` can be reached with `depth` operands. -/
inductive Visits (code : Array Instruction) : (pc depth : Nat) → Prop where
  | start : Visits code 0 0
  | next {pc depth pc' : Nat} {i : Instruction} (h : Visits code pc depth)
    (hi : code[pc]? = some i) (hfits : i.Fits depth) (hpc : pc' ∈ i.successors pc code.size) :
    Visits code pc' (i.depthAfter depth)

/-- Nothing is visited with more operands than a frame may hold. -/
theorem Visits.depth_le {code : Array Instruction} {pc depth : Nat} (h : Visits code pc depth) :
    depth ≤ maxOperandDepth := by
  cases h with
  | start => exact Nat.zero_le _
  | next _ _ hfits => exact hfits.2

/-- Every instruction continues inside the code. -/
def Inside (code : Array Instruction) : Prop :=
  ∀ (pc : Nat) (i : Instruction), code[pc]? = some i →
    ∀ pc' ∈ i.successors pc code.size, pc' < code.size

/-- Every jump has its target inside the code. -/
def JumpsInside (code : Array Instruction) : Prop :=
  ∀ (pc : Nat) (i : Instruction), code[pc]? = some i →
    i.opcode = .jump ∨ i.opcode = .jumpIfFalse → i.arg1.toNat < code.size

theorem inside_of_jumps {code : Array Instruction} (h : JumpsInside code) : Inside code := by
  intro pc i hi pc' hpc'
  have hjump := h pc i hi
  have hfollowing : ∀ next ∈ (if pc + 1 < code.size then [pc + 1] else []), next < code.size := by
    intro next hnext
    split at hnext
    · rw [List.mem_singleton.mp hnext]
      assumption
    · cases hnext
  rw [Instruction.successors] at hpc'
  generalize i.opcode = op at hjump hpc'
  cases op with
  | ret => cases hpc'
  | jump =>
    rw [List.mem_singleton.mp hpc']
    exact hjump (.inl rfl)
  | jumpIfFalse =>
    rcases List.mem_cons.mp hpc' with rfl | hnext
    · exact hjump (.inr rfl)
    · exact hfollowing pc' hnext
  | _ => exact hfollowing pc' hpc'

/-! ## One round -/

section Round

variable {function pc depth : Nat} {i : Instruction} {code : Array Instruction}
  {depthAt : Array (Option Nat)} {pending : List (Nat × Nat)} {errors : Array VerifyError}

theorem visit_of_fits (size : Nat) (h : i.Fits depth) :
    visit function size pc depth i
      = .ok ((i.successors pc size).map fun next ↦ (next, i.depthAfter depth)) := by
  have hpops : ¬depth < i.effect.pops := Nat.not_lt.mpr h.1
  have hafter : ¬maxOperandDepth < depth - i.effect.pops + i.effect.pushes := Nat.not_lt.mpr h.2
  rw [visit]
  dsimp only
  rw [if_neg hpops, if_neg hafter]
  rfl

theorem exists_visit_error (size : Nat) (h : ¬i.Fits depth) :
    ∃ e, visit function size pc depth i = .error e := by
  rw [visit]
  dsimp only
  by_cases hpops : depth < i.effect.pops
  · exact ⟨_, if_pos hpops⟩
  · have hafter : maxOperandDepth < depth - i.effect.pops + i.effect.pushes := by
      refine Nat.lt_of_not_le fun hle ↦ h ⟨Nat.le_of_not_lt hpops, hle⟩
    rw [if_neg hpops, if_pos hafter]
    exact ⟨_, rfl⟩

theorem step_known {known : Nat} (h : depthAt[pc]? = some (some known)) :
    DepthPass.step function code ⟨depthAt, (pc, depth) :: pending, errors⟩
      = ⟨depthAt, pending, if known = depth then errors
          else errors.push (.stackHeightMismatch function pc known depth)⟩ := by
  simp only [DepthPass.step, h]
  split <;> rfl

theorem step_fits (h : depthAt[pc]? = some none) (hi : code[pc]? = some i) (hfits : i.Fits depth) :
    DepthPass.step function code ⟨depthAt, (pc, depth) :: pending, errors⟩
      = ⟨depthAt.setIfInBounds pc (some depth),
        ((i.successors pc code.size).map fun next ↦ (next, i.depthAfter depth)).reverse ++ pending,
        errors⟩ := by
  simp only [DepthPass.step, h, hi, visit_of_fits code.size hfits]

theorem step_error {e : VerifyError} (h : depthAt[pc]? = some none) (hi : code[pc]? = some i)
    (he : visit function code.size pc depth i = .error e) :
    DepthPass.step function code ⟨depthAt, (pc, depth) :: pending, errors⟩
      = ⟨depthAt.setIfInBounds pc (some depth), pending, errors.push e⟩ := by
  simp only [DepthPass.step, h, hi, he]

/-- What a round can come to that takes the pair of `pc` and `depth`. -/
inductive Round (function : Nat) (code : Array Instruction) (pc depth : Nat)
    (depthAt : Array (Option Nat)) (pending : List (Nat × Nat)) (errors : Array VerifyError) :
    DepthPass → Prop where
  | known (h : depthAt[pc]? = some (some depth)) :
    Round function code pc depth depthAt pending errors ⟨depthAt, pending, errors⟩
  | clash {known : Nat} (h : depthAt[pc]? = some (some known)) (hne : known ≠ depth) :
    Round function code pc depth depthAt pending errors
      ⟨depthAt, pending, errors.push (.stackHeightMismatch function pc known depth)⟩
  | visit {i : Instruction} (h : depthAt[pc]? = some none) (hi : code[pc]? = some i)
    (hfits : i.Fits depth) :
    Round function code pc depth depthAt pending errors ⟨depthAt.setIfInBounds pc (some depth),
      ((i.successors pc code.size).map fun next ↦ (next, i.depthAfter depth)).reverse ++ pending,
      errors⟩
  | fault {i : Instruction} {e : VerifyError} (h : depthAt[pc]? = some none)
    (hi : code[pc]? = some i) (he : visit function code.size pc depth i = .error e) :
    Round function code pc depth depthAt pending errors
      ⟨depthAt.setIfInBounds pc (some depth), pending, errors.push e⟩

theorem round_step (function : Nat) (pending : List (Nat × Nat)) (errors : Array VerifyError)
    (hpc : pc < code.size) (hsize : depthAt.size = code.size) :
    Round function code pc depth depthAt pending errors
      (DepthPass.step function code ⟨depthAt, (pc, depth) :: pending, errors⟩) := by
  have hget : depthAt[pc]? = some depthAt[pc] := Array.getElem?_eq_getElem (by omega)
  have hi : code[pc]? = some code[pc] := Array.getElem?_eq_getElem hpc
  cases hknown : depthAt[pc] with
  | some known =>
    rw [hknown] at hget
    rw [step_known hget]
    by_cases heq : known = depth
    · rw [heq] at hget
      rw [if_pos heq]
      exact .known hget
    · rw [if_neg heq]
      exact .clash hget heq
  | none =>
    rw [hknown] at hget
    by_cases hfits : code[pc].Fits depth
    · rw [step_fits hget hi hfits]
      exact .visit hget hi hfits
    · obtain ⟨e, he⟩ := @exists_visit_error function pc depth _ code.size hfits
      rw [step_error hget hi he]
      exact .fault hget hi he

end Round

/-! ## The invariant -/

namespace DepthPass

/-- The place has this depth, or is still to be visited with it. -/
def Noticed (pass : DepthPass) (pc depth : Nat) : Prop :=
  pass.depthAt[pc]? = some (some depth) ∨ (pc, depth) ∈ pass.pending

structure Inv (code : Array Instruction) (pass : DepthPass) : Prop where
  size_eq : pass.depthAt.size = code.size
  pending_lt : ∀ place ∈ pass.pending, place.1 < code.size
  start : pass.errors = #[] → pass.Noticed 0 0
  closed : pass.errors = #[] → ∀ (pc depth : Nat) (i : Instruction),
    pass.depthAt[pc]? = some (some depth) → code[pc]? = some i →
    i.Fits depth ∧ ∀ pc' ∈ i.successors pc code.size, pass.Noticed pc' (i.depthAfter depth)

theorem inv_start {code : Array Instruction} (h : 0 < code.size) : Inv code (.start code) where
  size_eq := Array.size_replicate
  pending_lt place hplace := by
    rw [List.mem_singleton.mp hplace]
    exact h
  start _ := .inr List.mem_cons_self
  closed _ pc depth i hdepth _ := by
    -- No place has a depth yet.
    rw [DepthPass.start, Array.getElem?_replicate] at hdepth
    split at hdepth <;> cases hdepth

section Step

variable {function pc depth : Nat} {i : Instruction} {code : Array Instruction}
  {depthAt : Array (Option Nat)} {pending : List (Nat × Nat)} {errors : Array VerifyError}

/-- A pair whose place has its depth may be forgotten. -/
theorem Noticed.forget {pc' depth' : Nat} (hknown : depthAt[pc]? = some (some depth))
    (h : Noticed ⟨depthAt, (pc, depth) :: pending, errors⟩ pc' depth') (after : Array VerifyError) :
    Noticed ⟨depthAt, pending, after⟩ pc' depth' := by
  rcases h with h | h
  · exact .inl h
  · rcases List.mem_cons.mp h with heq | h
    · cases heq
      exact .inl hknown
    · exact .inr h

/-- What was noticed stays so when a place without a depth gets one. -/
theorem Noticed.assign {pc' depth' : Nat} (hnone : depthAt[pc]? = some none)
    (h : Noticed ⟨depthAt, (pc, depth) :: pending, errors⟩ pc' depth')
    (added : List (Nat × Nat)) (after : Array VerifyError) :
    Noticed ⟨depthAt.setIfInBounds pc (some depth), added ++ pending, after⟩ pc' depth' := by
  obtain ⟨hlt, -⟩ := Array.getElem?_eq_some_iff.mp hnone
  rcases h with h | h
  · have hne : pc ≠ pc' := by
      rintro rfl
      rw [hnone] at h
      cases h
    exact .inl (by rw [Array.getElem?_setIfInBounds_ne hne, h])
  · rcases List.mem_cons.mp h with heq | h
    · cases heq
      exact .inl (Array.getElem?_setIfInBounds_self_of_lt hlt)
    · exact .inr (List.mem_append_right _ h)

/-- A round that reports an error leaves little to be shown. -/
theorem Inv.of_error {pass : DepthPass} {e : VerifyError} (hsize : pass.depthAt.size = code.size)
    (hpending : ∀ place ∈ pass.pending, place.1 < code.size)
    (herrors : pass.errors = errors.push e) : Inv code pass where
  size_eq := hsize
  pending_lt := hpending
  start h := by simp [h] at herrors
  closed h := by simp [h] at herrors

theorem Inv.tail (h : Inv code ⟨depthAt, (pc, depth) :: pending, errors⟩) :
    ∀ place ∈ pending, place.1 < code.size :=
  fun place hplace ↦ h.pending_lt place (List.mem_cons_of_mem _ hplace)

theorem Inv.forget (h : Inv code ⟨depthAt, (pc, depth) :: pending, errors⟩)
    (hknown : depthAt[pc]? = some (some depth)) : Inv code ⟨depthAt, pending, errors⟩ where
  size_eq := h.size_eq
  pending_lt := h.tail
  start herrors := (h.start herrors).forget hknown errors
  closed herrors pc' depth' i hdepth hi := by
    obtain ⟨hfits, hnoticed⟩ := h.closed herrors pc' depth' i hdepth hi
    exact ⟨hfits, fun next hnext ↦ (hnoticed next hnext).forget hknown errors⟩

theorem Inv.assign (hinside : Inside code)
    (h : Inv code ⟨depthAt, (pc, depth) :: pending, errors⟩) (hnone : depthAt[pc]? = some none)
    (hi : code[pc]? = some i) (hfits : i.Fits depth) :
    Inv code ⟨depthAt.setIfInBounds pc (some depth),
      ((i.successors pc code.size).map fun next ↦ (next, i.depthAfter depth)).reverse ++ pending,
      errors⟩ where
  size_eq := by
    rw [Array.size_setIfInBounds]
    exact h.size_eq
  pending_lt place hplace := by
    rcases List.mem_append.mp hplace with hplace | hplace
    · obtain ⟨next, hnext, rfl⟩ := List.mem_map.mp (List.mem_reverse.mp hplace)
      exact hinside pc i hi next hnext
    · exact h.tail place hplace
  start herrors := (h.start herrors).assign hnone _ errors
  closed herrors pc' depth' i' hdepth hi' := by
    by_cases hpc : pc = pc'
    · -- The place that has just got its depth: its successors are pending.
      subst hpc
      obtain ⟨hlt, -⟩ := Array.getElem?_eq_some_iff.mp hnone
      rw [Array.getElem?_setIfInBounds_self_of_lt hlt] at hdepth
      rw [hi] at hi'
      cases hdepth
      cases hi'
      refine ⟨hfits, fun next hnext ↦ .inr (List.mem_append_left _ (List.mem_reverse.mpr ?_))⟩
      exact List.mem_map.mpr ⟨next, hnext, rfl⟩
    · rw [Array.getElem?_setIfInBounds_ne hpc] at hdepth
      obtain ⟨hfits', hnoticed⟩ := h.closed herrors pc' depth' i' hdepth hi'
      exact ⟨hfits', fun next hnext ↦ (hnoticed next hnext).assign hnone _ errors⟩

theorem Inv.round (function : Nat) (h : Inv code ⟨depthAt, (pc, depth) :: pending, errors⟩) :
    Round function code pc depth depthAt pending errors
      (DepthPass.step function code ⟨depthAt, (pc, depth) :: pending, errors⟩) :=
  round_step function pending errors (h.pending_lt (pc, depth) List.mem_cons_self) h.size_eq

/-- Every round keeps the invariant. -/
theorem Inv.step (function : Nat) (hinside : Inside code) {pass : DepthPass} (h : Inv code pass) :
    Inv code (pass.step function code) := by
  obtain ⟨depthAt, pending, errors⟩ := pass
  rcases pending with _ | ⟨⟨pc, depth⟩, pending⟩
  · exact h
  have hround := h.round function
  generalize DepthPass.step function code ⟨depthAt, (pc, depth) :: pending, errors⟩ = next
    at hround ⊢
  cases hround with
  | known hknown => exact h.forget hknown
  | clash => exact .of_error h.size_eq h.tail rfl
  | visit hnone hi hfits => exact h.assign hinside hnone hi hfits
  | fault hnone =>
    refine .of_error ?_ h.tail rfl
    rw [Array.size_setIfInBounds]
    exact h.size_eq

end Step

/-! ## All rounds -/

/-- What is left to do. -/
def work (pass : DepthPass) : Nat :=
  pass.pending.length + 2 * pass.depthAt.countP Option.isNone

theorem work_start (code : Array Instruction) : (start code).work = 2 * code.size + 1 := by
  simp [work, start, Array.countP_replicate, Nat.add_comm]

theorem countP_assign {depthAt : Array (Option Nat)} {pc depth : Nat}
    (h : depthAt[pc]? = some none) :
    (depthAt.setIfInBounds pc (some depth)).countP Option.isNone + 1
      = depthAt.countP Option.isNone := by
  obtain ⟨hlt, hnone⟩ := Array.getElem?_eq_some_iff.mp h
  have hmem : none ∈ depthAt := Array.mem_of_getElem? h
  have hpos : 0 < depthAt.countP Option.isNone := Array.countP_pos_iff.mpr ⟨none, hmem, rfl⟩
  rw [Array.setIfInBounds, dif_pos hlt, Array.countP_set hlt, hnone]
  simp
  omega

theorem work_step_lt {code : Array Instruction} (function : Nat) {pass : DepthPass}
    (h : Inv code pass) (hpending : pass.pending ≠ []) :
    (pass.step function code).work < pass.work := by
  obtain ⟨depthAt, pending, errors⟩ := pass
  rcases pending with _ | ⟨⟨pc, depth⟩, pending⟩
  · exact absurd rfl hpending
  have hround := h.round function
  generalize DepthPass.step function code ⟨depthAt, (pc, depth) :: pending, errors⟩ = next
    at hround ⊢
  cases hround with
  | known | clash =>
    simp only [work, List.length_cons]
    omega
  | @visit i hnone hi hfits =>
    have hcount := @countP_assign depthAt pc depth hnone
    have hsuccessors := i.length_successors_le pc code.size
    simp only [work, List.length_append, List.length_reverse, List.length_map, List.length_cons]
    omega
  | fault hnone =>
    have hcount := @countP_assign depthAt pc depth hnone
    simp only [work, List.length_cons]
    omega

/-- After enough rounds nothing is pending. -/
theorem Inv.run {code : Array Instruction} (function : Nat) (hinside : Inside code) {rounds : Nat}
    {pass : DepthPass} (h : Inv code pass) (hwork : pass.work ≤ rounds) :
    Inv code (pass.run function code rounds) ∧ (pass.run function code rounds).pending = [] := by
  induction rounds generalizing pass with
  | zero =>
    refine ⟨h, List.eq_nil_of_length_eq_zero ?_⟩
    rw [work] at hwork
    change pass.pending.length = 0
    omega
  | succ rounds ih =>
    rw [DepthPass.run]
    split
    · exact ⟨h, ‹_›⟩
    · rename_i hpending
      have hlt := work_step_lt function h (by rw [hpending]; exact List.cons_ne_nil _ _)
      exact ih (h.step function hinside) (by omega)

end DepthPass

/-! ## What the pass establishes -/

/-- If nothing is wrong and nothing is pending, the places have just the depths they are visited
with. -/
theorem DepthPass.Inv.depthAt_of_visits {code : Array Instruction} {pass : DepthPass}
    (h : Inv code pass) (hpending : pass.pending = []) (herrors : pass.errors = #[])
    {pc depth : Nat} (hvisits : Visits code pc depth) :
    pass.depthAt[pc]? = some (some depth) := by
  have hassigned : ∀ {pc depth}, pass.Noticed pc depth → pass.depthAt[pc]? = some (some depth) := by
    intro pc depth hnoticed
    refine hnoticed.resolve_right fun hmem ↦ ?_
    rw [hpending] at hmem
    cases hmem
  induction hvisits with
  | start => exact hassigned (h.start herrors)
  | next _ hi _ hpc ih =>
    obtain ⟨-, hnoticed⟩ := h.closed herrors _ _ _ ih hi
    exact hassigned (hnoticed _ hpc)

/-- The pass once it is over. -/
def DepthPass.final (function : Nat) (code : Array Instruction) : DepthPass :=
  (start code).run function code (2 * code.size + 1)

theorem DepthPass.inv_final {code : Array Instruction} (function : Nat) (hinside : Inside code)
    (hsize : 0 < code.size) : Inv code (final function code) ∧ (final function code).pending = [] :=
  (inv_start hsize).run function hinside (Nat.le_of_eq (work_start code))

theorem checkFunctionDepth_eq {f : FunctionDef} (function : Nat) (hsize : 0 < f.code.size) :
    checkFunctionDepth f function = (DepthPass.final function f.code).errors.toList := by
  have hcode : ¬f.code.isEmpty := by
    rw [Array.isEmpty_iff_size_eq_zero]
    omega
  rw [checkFunctionDepth, if_neg hcode, DepthPass.final]

/-- In a function that passes, every instruction fits wherever it is visited. -/
theorem fits_of_visits {f : FunctionDef} {function : Nat} (hinside : Inside f.code)
    (hsize : 0 < f.code.size) (h : checkFunctionDepth f function = []) {pc depth : Nat}
    (hvisits : Visits f.code pc depth) : ∃ i, f.code[pc]? = some i ∧ i.Fits depth := by
  obtain ⟨hinv, hpending⟩ := DepthPass.inv_final function hinside hsize
  rw [checkFunctionDepth_eq function hsize] at h
  generalize DepthPass.final function f.code = pass at *
  have herrors : pass.errors = #[] := Array.toList_eq_nil_iff.mp h
  have hdepth := hinv.depthAt_of_visits hpending herrors hvisits
  obtain ⟨hlt, -⟩ := Array.getElem?_eq_some_iff.mp hdepth
  rw [hinv.size_eq] at hlt
  have hi : f.code[pc]? = some f.code[pc] := Array.getElem?_eq_getElem hlt
  exact ⟨f.code[pc], hi, (hinv.closed herrors pc depth _ hdepth hi).1⟩

end Verify

end Bytecode
