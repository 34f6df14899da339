import Bytecode.Machine.Stack

/-!
# The value stack as a list

Every operation of the stack, said about a stack whose values are a given list. Where an operation
cuts the stack, the list is written as what stays and what goes, so that no slot numbers remain.
-/

namespace Bytecode.Stack

/-- The last `count` values of a list, and those before. -/
theorem exists_append_of_le_length {count : Nat} {values : List Value} (h : count ≤ values.length) :
    ∃ kept passed : List Value, values = kept ++ passed ∧ passed.length = count :=
  ⟨_, _, (List.take_append_drop (values.length - count) values).symm,
    by rw [List.length_drop, Nat.sub_sub_self h]⟩

variable {base : Nat}

@[simp] theorem size_mk (values : List Value) : size ⟨values.toArray, base⟩ = values.length := by
  simp [size]

@[simp] theorem push_mk (values : List Value) (value : Value) :
    push ⟨values.toArray, base⟩ value = ⟨(values ++ [value]).toArray, base⟩ := by
  simp [push]

/-! ## Absolute slots -/

theorem popAbove_concat {floor : Nat} {values : List Value} (value : Value)
    (h : floor ≤ values.length) :
    popAbove ⟨(values ++ [value]).toArray, base⟩ floor = (some value, ⟨values.toArray, base⟩) := by
  have hlt : ¬values.length + 1 ≤ floor := by omega
  simp [popAbove, hlt]

theorem popAbove_of_length_le {floor : Nat} {values : List Value} (h : values.length ≤ floor) :
    popAbove ⟨values.toArray, base⟩ floor = (none, ⟨values.toArray, base⟩) := by
  simp [popAbove, h]

theorem slot?_top (values : List Value) (value : Value) :
    slot? ⟨(values ++ [value]).toArray, base⟩ ((values ++ [value]).length - 1) = some value := by
  simp [slot?]

theorem truncate_append {kept : List Value} (cut : List Value) (h : base ≤ kept.length) :
    truncate ⟨(kept ++ cut).toArray, base⟩ kept.length = ⟨kept.toArray, base⟩ := by
  simp [truncate, Nat.max_eq_left h]

theorem fit_toArray (values : List Value) (size : Nat) :
    fit values.toArray size
      = (values.take size ++ List.replicate (size - values.length) Value.null).toArray := by
  rw [fit]
  split
  · rename_i h
    have h' : size ≤ values.length := by simpa using h
    simp [Nat.sub_eq_zero_of_le h']
  · rename_i h
    have h' : values.length ≤ size := by simp at h; omega
    simp [List.take_of_length_le h']

/-! ## The window over other values

Host code works on the window and the values below it do not matter. Each operation is said of the
window alone. -/

/-- The stack whose window holds `window` and has `below` below it. -/
def windowed (below window : List Value) : Stack :=
  ⟨(below ++ window).toArray, below.length⟩

variable (below window : List Value)

@[simp] theorem values_windowed : (windowed below window).values = (below ++ window).toArray := rfl

@[simp] theorem base_windowed : (windowed below window).base = below.length := rfl

@[simp] theorem height_windowed : (windowed below window).height = window.length := by
  simp [height, windowed]

@[simp] theorem window_windowed : (windowed below window).window = window := by
  simp [Stack.window, windowed]

theorem push_windowed (value : Value) :
    (windowed below window).push value = windowed below (window ++ [value]) := by
  simp [push, windowed]

theorem pop_windowed (count : Nat) :
    (windowed below window).pop count = windowed below (window.take (window.length - count)) := by
  rw [pop, height_windowed]
  simp [windowed, List.take_append, List.take_of_length_le]

theorem setTop_windowed (height : Nat) :
    (windowed below window).setTop height
      = windowed below
          (window.take height ++ List.replicate (height - window.length) Value.null) := by
  have hsub : below.length + height - (below.length + window.length) = height - window.length := by
    omega
  simp only [setTop, windowed, fit_toArray]
  simp [List.take_append, List.take_of_length_le, hsub]

theorem takeTop_windowed_nil : (windowed below []).takeTop = (none, windowed below []) := by
  simp [takeTop]

theorem takeTop_windowed_concat (value : Value) :
    (windowed below (window ++ [value])).takeTop = (some value, windowed below window) := by
  have hne : (windowed below (window ++ [value])).height ≠ 0 := by simp
  rw [takeTop, if_neg hne]
  simp [windowed, ← List.append_assoc]

theorem get?_windowed (index : Int) :
    (windowed below window).get? index =
      let offset := if index < 0 then window.length + index else index
      if 0 ≤ offset ∧ offset < window.length then window[offset.toNat]? else none := by
  simp only [get?, resolve?, height_windowed, base_windowed, values_windowed]
  by_cases h : 0 ≤ (if index < 0 then window.length + index else index)
      ∧ (if index < 0 then window.length + index else index) < window.length
  · simp only [if_pos h, List.getElem?_toArray]
    rw [List.getElem?_append_right (Nat.le_add_right _ _), Nat.add_sub_cancel_left]
  · simp only [if_neg h]

/-! ## Opening and closing windows -/

theorem openWindow_append {below : List Value} (window : List Value) (h : base ≤ below.length) :
    openWindow ⟨(below ++ window).toArray, base⟩ window.length
      = ⟨(below ++ window).toArray, below.length⟩ := by
  have hmin : min window.length (below.length + window.length - base) = window.length := by omega
  simp [openWindow, height, hmin]

theorem closeWindow_mk {values : List Value} {outer : Nat} (h : outer ≤ values.length) :
    closeWindow ⟨values.toArray, base⟩ outer = ⟨values.toArray, outer⟩ := by
  simp [closeWindow, Nat.min_eq_left h]

end Bytecode.Stack
