import Bytecode.Value.Basic

/-!
# The value stack

One array of values with a movable bottom. Host code sees the *window*, the values from `base`
upwards: index `0` is the lowest of them and `-1` the top. Calls move `base` up to the arguments, so
that a callee sees nothing else. The interpreter addresses slots absolutely and keeps its own
frames; those operations stand in the second half.
-/

namespace Bytecode

/-- Values with a movable bottom. -/
structure Stack where
  values : Array Value := #[]
  base : Nat := 0
  deriving DecidableEq, Repr

namespace Stack

/-! ## The window -/

/-- The number of values in the window. -/
def height (stack : Stack) : Nat :=
  stack.values.size - stack.base

/-- The values of the window, from the bottom. -/
def window (stack : Stack) : List Value :=
  stack.values.toList.drop stack.base

/-- The slot a window index refers to. Indices from zero count from the bottom of the window,
negative ones from its top. -/
def resolve? (stack : Stack) (index : Int) : Option Nat :=
  let offset := if index < 0 then stack.height + index else index
  if 0 ≤ offset ∧ offset < stack.height then some (stack.base + offset.toNat) else none

/-- The value a window index refers to. -/
def get? (stack : Stack) (index : Int) : Option Value :=
  match stack.resolve? index with
  | some slot => stack.values[slot]?
  | none => none

def push (stack : Stack) (value : Value) : Stack :=
  { stack with values := stack.values.push value }

/-- Remove values from the top, as many as the window has at most. -/
def pop (stack : Stack) (count : Nat) : Stack :=
  { stack with values := stack.values.shrink (stack.base + (stack.height - count)) }

/-- Cut an array down, or pad it with null, to `size` values. -/
def fit (values : Array Value) (size : Nat) : Array Value :=
  if size ≤ values.size then values.shrink size
  else values ++ Array.replicate (size - values.size) .null

/-- Cut the window down, or pad it with null, to `height` values. -/
def setTop (stack : Stack) (height : Nat) : Stack :=
  { stack with values := fit stack.values (stack.base + height) }

/-- Take the top value of the window off. -/
def takeTop (stack : Stack) : Option Value × Stack :=
  if stack.height = 0 then (none, stack)
  else (stack.values.back?, { stack with values := stack.values.pop })

/-! ## Opening and closing windows -/

/-- Make the top `count` values the whole window. -/
def openWindow (stack : Stack) (count : Nat) : Stack :=
  { stack with base := stack.values.size - min count stack.height }

/-- Go back to an outer window. -/
def closeWindow (stack : Stack) (outer : Nat) : Stack :=
  { stack with base := min outer stack.values.size }

/-! ## Absolute slots -/

/-- The number of values, those below the window included. -/
def size (stack : Stack) : Nat :=
  stack.values.size

/-- The value in a slot. -/
def slot? (stack : Stack) (slot : Nat) : Option Value :=
  stack.values[slot]?

/-- Put a value into a slot, if there is such a slot. -/
def setSlot (stack : Stack) (slot : Nat) (value : Value) : Stack :=
  { stack with values := stack.values.setIfInBounds slot value }

/-- Take the top value off, unless the stack is down to `floor` values. -/
def popAbove (stack : Stack) (floor : Nat) : Option Value × Stack :=
  if stack.values.size ≤ floor then (none, stack)
  else (stack.values.back?, { stack with values := stack.values.pop })

/-- Cut the stack down to `size` values, but not below the window. -/
def truncate (stack : Stack) (size : Nat) : Stack :=
  { stack with values := stack.values.shrink (max size stack.base) }

/-- Cut the stack down, or pad it with null, to `size` values. -/
def resize (stack : Stack) (size : Nat) : Stack :=
  { stack with values := fit stack.values size }

end Stack

end Bytecode
