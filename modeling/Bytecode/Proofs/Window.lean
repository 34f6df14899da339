import Bytecode.Proofs.Stack

/-!
# The window is a list

Host code reaches the values of its window by pushing, popping, setting the height and taking the
top value off, and reads them by indices that count from either end. All of these are computed from
the base and the size of one array. Here they are compared with what they should do to a plain list
(`WindowOp.onList`): any sequence of operations has the same answers on a stack as on the list of
its window, and it touches nothing below (`performAll_windowed`).

Indices are compared as integers, the least ones included, so that no index is ever negated.
-/

namespace Bytecode

/-- An operation on the values of the window. -/
inductive WindowOp where
  | push (value : Value)
  | pop (count : Nat)
  | setTop (height : Nat)
  | takeTop
  deriving DecidableEq, Repr

namespace WindowOp

/-- The operation on a stack. Only taking the top value off gives an answer. -/
def onStack (stack : Stack) : WindowOp → Option Value × Stack
  | .push value => (none, stack.push value)
  | .pop count => (none, stack.pop count)
  | .setTop height => (none, stack.setTop height)
  | .takeTop => stack.takeTop

/-- The operation on a plain list, whose last value is the top. -/
def onList (values : List Value) : WindowOp → Option Value × List Value
  | .push value => (none, values ++ [value])
  | .pop count => (none, values.take (values.length - min count values.length))
  | .setTop height =>
    (none, values.take height ++ List.replicate (height - values.length) .null)
  | .takeTop => (values.getLast?, values.dropLast)

/-- The answers of operations that are carried out one after the other, and what they lead to. -/
def performAll {σ : Type} (perform : σ → WindowOp → Option Value × σ) :
    σ → List WindowOp → List (Option Value) × σ
  | state, [] => ([], state)
  | state, op :: ops =>
    let (answer, next) := perform state op
    let (answers, last) := performAll perform next ops
    (answer :: answers, last)

end WindowOp

namespace Stack

open WindowOp

/-- The values below the window, from the bottom. -/
def below (stack : Stack) : List Value :=
  stack.values.toList.take stack.base

@[simp] theorem below_windowed (below window : List Value) :
    (windowed below window).below = below := by
  simp [Stack.below, windowed]

/-- A stack is the values below its window with the window on top of them. -/
theorem eq_windowed {stack : Stack} (hbase : stack.base ≤ stack.size) :
    stack = windowed stack.below stack.window := by
  obtain ⟨⟨values⟩, base⟩ := stack
  have hlength : base ≤ values.length := hbase
  simp [Stack.below, Stack.window, windowed, hlength]

/-! ## Operations -/

theorem onStack_windowed (below window : List Value) (op : WindowOp) :
    op.onStack (windowed below window)
      = ((op.onList window).1, windowed below (op.onList window).2) := by
  cases op with
  | push value => rw [onStack, push_windowed, onList]
  | pop count =>
    have hkept : window.length - count = window.length - min count window.length := by omega
    rw [onStack, pop_windowed, onList, hkept]
  | setTop height => rw [onStack, setTop_windowed, onList]
  | takeTop =>
    rcases List.eq_nil_or_concat window with rfl | ⟨rest, value, rfl⟩
    · exact takeTop_windowed_nil below
    · rw [List.concat_eq_append, onStack, takeTop_windowed_concat, onList, List.getLast?_concat,
        List.dropLast_concat]

/-- On a stack, operations do to the window what they do to a list, and nothing else. -/
theorem performAll_windowed (below window : List Value) (ops : List WindowOp) :
    performAll onStack (windowed below window) ops
      = ((performAll onList window ops).1, windowed below (performAll onList window ops).2) := by
  induction ops generalizing window with
  | nil => rfl
  | cons op ops ih =>
    rw [performAll, performAll, onStack_windowed]
    dsimp only
    rw [ih]

/-! ## Indices -/

/-- The slot that an index refers to, which lies in the window. -/
theorem resolve?_windowed_eq_some_iff (below window : List Value) (index : Int) (slot : Nat) :
    (windowed below window).resolve? index = some slot ↔
      (0 ≤ index ∧ index < window.length ∧ (slot : Int) = below.length + index) ∨
      (-window.length ≤ index ∧ index < 0 ∧
        (slot : Int) = below.length + window.length + index) := by
  rw [resolve?, height_windowed, base_windowed]
  by_cases hneg : index < 0
  · rw [if_pos hneg]
    constructor
    · intro h
      obtain ⟨hinside, hslot⟩ := Option.ite_none_right_eq_some.mp h
      have hslot' := Option.some.inj hslot
      exact .inr ⟨by omega, hneg, by omega⟩
    · rintro (⟨hnonneg, -⟩ | ⟨hle, -, hslot⟩)
      · exact absurd hneg (Int.not_lt.mpr hnonneg)
      · rw [if_pos ⟨by omega, by omega⟩]
        exact congrArg some (by omega)
  · rw [if_neg hneg]
    constructor
    · intro h
      obtain ⟨⟨hnonneg, hlt⟩, hslot⟩ := Option.ite_none_right_eq_some.mp h
      have hslot' := Option.some.inj hslot
      exact .inl ⟨hnonneg, hlt, by omega⟩
    · rintro (⟨hnonneg, hlt, hslot⟩ | ⟨-, hlt, -⟩)
      · rw [if_pos ⟨hnonneg, hlt⟩]
        exact congrArg some (by omega)
      · exact absurd hlt hneg

section Resolve

variable (below window : List Value) (index : Int)

theorem resolve?_windowed_from_bottom_iff :
    (∃ slot : Nat, (windowed below window).resolve? index = some slot ∧
      (slot : Int) = below.length + index) ↔ 0 ≤ index ∧ index < window.length := by
  simp only [resolve?_windowed_eq_some_iff]
  constructor
  · rintro ⟨slot, ⟨hnonneg, hlt, -⟩ | ⟨hle, hneg, hother⟩, hslot⟩
    · exact ⟨hnonneg, hlt⟩
    · -- Both ways of counting lead to one slot only in an empty window.
      omega
  · rintro ⟨hnonneg, hlt⟩
    have hslot : ((below.length + index.toNat : Nat) : Int) = below.length + index := by omega
    exact ⟨_, .inl ⟨hnonneg, hlt, hslot⟩, hslot⟩

theorem resolve?_windowed_from_top_iff :
    (∃ slot : Nat, (windowed below window).resolve? index = some slot ∧
      (slot : Int) = below.length + window.length + index) ↔
      -window.length ≤ index ∧ index < 0 := by
  simp only [resolve?_windowed_eq_some_iff]
  constructor
  · rintro ⟨slot, ⟨hnonneg, hlt, hother⟩ | ⟨hle, hneg, -⟩, hslot⟩
    · omega
    · exact ⟨hle, hneg⟩
  · rintro ⟨hle, hneg⟩
    have hslot : ((below.length + (window.length + index).toNat : Nat) : Int)
        = below.length + window.length + index := by omega
    exact ⟨_, .inr ⟨hle, hneg, hslot⟩, hslot⟩

theorem resolve?_windowed_eq_none_iff :
    (windowed below window).resolve? index = none ↔
      ¬(-window.length ≤ index ∧ index < window.length) := by
  constructor
  · rintro hnone ⟨hle, hlt⟩
    by_cases hneg : index < 0
    · obtain ⟨slot, hslot, -⟩ := (resolve?_windowed_from_top_iff below window index).mpr ⟨hle, hneg⟩
      rw [hnone] at hslot
      cases hslot
    · obtain ⟨slot, hslot, -⟩ :=
        (resolve?_windowed_from_bottom_iff below window index).mpr ⟨Int.not_lt.mp hneg, hlt⟩
      rw [hnone] at hslot
      cases hslot
  · intro houtside
    refine Option.eq_none_iff_forall_ne_some.mpr fun slot hslot ↦ houtside ?_
    rcases (resolve?_windowed_eq_some_iff below window index slot).mp hslot with
      ⟨hnonneg, hlt, -⟩ | ⟨hle, hneg, -⟩
    · exact ⟨by omega, hlt⟩
    · exact ⟨hle, by omega⟩

end Resolve

section Get

variable (below window : List Value) {index : Int} (hnonneg : 0 ≤ index)
  (hlt : index < window.length)

include hnonneg hlt

/-- An index from the bottom reads that place of the window. -/
theorem get?_windowed_of_nonneg :
    (windowed below window).get? index = window[index.toNat]? := by
  rw [get?_windowed]
  dsimp only
  rw [if_neg (Int.not_lt.mpr hnonneg), if_pos ⟨hnonneg, hlt⟩]

/-- So does the index that reaches the same place from the top. -/
theorem get?_windowed_sub_length :
    (windowed below window).get? (index - window.length) = window[index.toNat]? := by
  have hneg : index - window.length < 0 := by omega
  have hoffset : (window.length : Int) + (index - window.length) = index := by omega
  rw [get?_windowed]
  dsimp only
  rw [if_pos hneg, hoffset, if_pos ⟨hnonneg, hlt⟩]

end Get

/-! ## The window -/

/-- The window is a list. In any sequence, pushing appends to it, popping drops as many of its last
values as there are, setting the height cuts it down or pads it with null, and taking the top value
off removes the last one; what is below stays. Indices from zero count from its beginning and
negative ones from its end, and nothing else refers to a value. -/
theorem window_is_a_list (stack : Stack) (hbase : stack.base ≤ stack.size) :
    (∀ ops : List WindowOp,
      let after := (performAll onStack stack ops).2
      (performAll onStack stack ops).1 = (performAll onList stack.window ops).1 ∧
        after.window = (performAll onList stack.window ops).2 ∧
        after.below = stack.below ∧ after.base = stack.base) ∧
    (∀ index : Int,
      ((∃ slot : Nat, stack.resolve? index = some slot ∧ (slot : Int) = stack.base + index) ↔
        0 ≤ index ∧ index < stack.window.length) ∧
      ((∃ slot : Nat, stack.resolve? index = some slot ∧
          (slot : Int) = stack.base + stack.window.length + index) ↔
        -stack.window.length ≤ index ∧ index < 0) ∧
      (stack.resolve? index = none ↔
        ¬(-stack.window.length ≤ index ∧ index < stack.window.length))) ∧
    ∀ index : Int, 0 ≤ index → index < stack.window.length →
      stack.get? index = stack.window[index.toNat]? ∧
        stack.get? index = stack.get? (index - stack.window.length) := by
  obtain ⟨below, window, rfl⟩ : ∃ below window, stack = windowed below window :=
    ⟨_, _, eq_windowed hbase⟩
  simp only [window_windowed, below_windowed, base_windowed]
  refine ⟨fun ops ↦ ?_, fun index ↦ ⟨?_, ?_, ?_⟩, fun index hnonneg hlt ↦ ⟨?_, ?_⟩⟩
  · rw [performAll_windowed]
    exact ⟨rfl, window_windowed _ _, below_windowed _ _, base_windowed _ _⟩
  · exact resolve?_windowed_from_bottom_iff below window index
  · exact resolve?_windowed_from_top_iff below window index
  · exact resolve?_windowed_eq_none_iff below window index
  · exact get?_windowed_of_nonneg below window hnonneg hlt
  · rw [get?_windowed_of_nonneg below window hnonneg hlt,
      get?_windowed_sub_length below window hnonneg hlt]

/-! ## A window that is emptied and refilled -/

namespace Refilled

/-- Three values in the window and one below. -/
def stack : Stack :=
  ⟨#[.bool true, .i64 1, .i64 2, .i64 3], 1⟩

/-- Pops more than there is, takes from nothing, and fills up again. -/
def ops : List WindowOp :=
  [.takeTop, .pop 7, .takeTop, .setTop 2, .push (.i64 4)]

end Refilled

theorem window_is_a_list_refilled :
    Refilled.stack.base ≤ Refilled.stack.size ∧
      (performAll onStack Refilled.stack Refilled.ops).1
        = [some (.i64 3), none, none, none, none] ∧
      (performAll onStack Refilled.stack Refilled.ops).2.window = [.null, .null, .i64 4] ∧
      Refilled.stack.resolve? (-2147483648) = none ∧
      Refilled.stack.get? 2 = Refilled.stack.get? (-1) := by
  have hbase : Refilled.stack.base ≤ Refilled.stack.size := by decide
  obtain ⟨hops, hindices, hget⟩ := window_is_a_list Refilled.stack hbase
  obtain ⟨hanswers, hwindow, -, -⟩ := hops Refilled.ops
  refine ⟨hbase, hanswers, hwindow, ?_, (hget 2 (by decide) (by decide)).2⟩
  exact (hindices (-2147483648)).2.2.mpr (by decide)

end Stack

end Bytecode
