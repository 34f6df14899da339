import Bytecode.Value.Basic
import Std.Data.HashMap

/-!
# Global variables

Globals are bound by the exact bytes of their names. A later binding replaces an earlier one, and
nothing removes one.
-/

namespace Bytecode

/-- The table of global variables. -/
structure Globals where
  bindings : Std.HashMap Bytes Value := ∅

namespace Globals

/-- Bind a name. -/
def set (globals : Globals) (name : Bytes) (value : Value) : Globals :=
  ⟨globals.bindings.insert name value⟩

/-- The value bound to a name. -/
def get? (globals : Globals) (name : Bytes) : Option Value :=
  globals.bindings[name]?

/-- The number of bound names. -/
def size (globals : Globals) : Nat :=
  globals.bindings.size

def isEmpty (globals : Globals) : Bool :=
  globals.bindings.isEmpty

@[simp] theorem get?_set_self (globals : Globals) (name : Bytes) (value : Value) :
    (globals.set name value).get? name = some value := by
  simp [set, get?]

theorem get?_set_of_ne (globals : Globals) {name other : Bytes} (value : Value) (h : name ≠ other) :
    (globals.set name value).get? other = globals.get? other := by
  simp [set, get?, Std.HashMap.getElem?_insert, h]

end Globals

end Bytecode
