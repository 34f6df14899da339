import Bytecode.Machine.Operator

/-!
# Traps of operators

An operator traps for one of two reasons: it does not take the type of an operand, and then the trap
names the operator itself, or it divides an integer by zero.
-/

namespace Bytecode

theorem UnaryOp.apply_error {op : UnaryOp} {a : Value} {kind : TrapKind}
    (h : op.apply a = .error kind) : kind = .typeMismatch (.unary op) a.tag := by
  cases op <;> cases a <;> cases h <;> rfl

namespace BinaryOp

/-- The operator finds fault with the type of an operand. -/
def Refuses (op : BinaryOp) (kind : TrapKind) : Prop :=
  ∃ found, kind = .typeMismatch (.binary op) found

variable {op : BinaryOp} {a b : Value} {kind : TrapKind}

theorem refuses_mismatch {α : Type} {found : Value}
    (h : (mismatch (.binary op) found : Except TrapKind α) = .error kind) : op.Refuses kind := by
  cases h
  exact ⟨_, rfl⟩

theorem refuses_numericMismatch (h : op.numericMismatch a b = .error kind) : op.Refuses kind := by
  unfold numericMismatch at h
  split at h <;> exact refuses_mismatch h

theorem arithmetic_error {onI64 : Int64 → Int64 → Int64} {onF64 : UInt64 → UInt64 → UInt64}
    (h : op.arithmetic onI64 onF64 a b = .error kind) : op.Refuses kind := by
  unfold arithmetic at h
  split at h
  · cases h
  · cases h
  · exact refuses_numericMismatch h

theorem division_error {onI64 : Int64 → Int64 → Int64} {onF64 : UInt64 → UInt64 → UInt64}
    (h : op.division onI64 onF64 a b = .error kind) :
    kind = .divisionByZero ∨ op.Refuses kind := by
  unfold division at h
  split at h
  · split at h
    · cases h
      exact .inl rfl
    · cases h
  · cases h
  · exact .inr (refuses_numericMismatch h)

theorem ordering_error {test : Ordering → Bool} (h : op.ordering test a b = .error kind) :
    op.Refuses kind := by
  rw [ordering] at h
  cases horder : op.order a b with
  | ok found =>
    rw [horder] at h
    cases found <;> cases h
  | error kind' =>
    rw [horder] at h
    cases h
    unfold order at horder
    split at horder
    · cases horder
    · cases horder
    · cases horder
    all_goals exact refuses_mismatch horder

theorem logic_error {onBool : Bool → Bool → Bool} (h : op.logic onBool a b = .error kind) :
    op.Refuses kind := by
  unfold logic at h
  split at h
  · cases h
  all_goals exact refuses_mismatch h

theorem joined_error (h : op.joined a b = .error kind) : op.Refuses kind := by
  unfold joined at h
  split at h
  · cases h
  all_goals exact refuses_mismatch h

theorem apply_error (h : op.apply a b = .error kind) :
    kind = .divisionByZero ∨ op.Refuses kind := by
  cases op with
  | add | sub | mul => exact .inr (arithmetic_error h)
  | div | mod => exact division_error h
  | eq | neq => cases h
  | lt | gt | lte | gte => exact .inr (ordering_error h)
  | and | or => exact .inr (logic_error h)
  | concat => exact .inr (joined_error h)

theorem not_refuses_divisionByZero : ¬op.Refuses .divisionByZero := by
  rintro ⟨found, hfound⟩
  cases hfound

/-- Only what divides can divide by zero. -/
theorem div_or_mod_of_apply_error (h : op.apply a b = .error .divisionByZero) :
    op = .div ∨ op = .mod := by
  cases op with
  | div => exact .inl rfl
  | mod => exact .inr rfl
  | add | sub | mul => exact absurd (arithmetic_error h) not_refuses_divisionByZero
  | eq | neq => cases h
  | lt | gt | lte | gte => exact absurd (ordering_error h) not_refuses_divisionByZero
  | and | or => exact absurd (logic_error h) not_refuses_divisionByZero
  | concat => exact absurd (joined_error h) not_refuses_divisionByZero

end BinaryOp

end Bytecode
