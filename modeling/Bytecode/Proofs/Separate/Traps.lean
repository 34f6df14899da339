import Bytecode.Proofs.Operator
import Bytecode.Proofs.Separate.Step

/-!
# What an instruction can raise

An instruction that has the operands it needs raises few kinds of trap, and its opcode says which.
A trap that carries a name carries the name that the instruction refers to. Whatever an instruction
does raise is of such a kind, or it is for want of an operand (`accounts_exec`).
-/

namespace Bytecode

/-- Too few operands, or an operand that refers to nothing. -/
def TrapKind.isOperandFault : TrapKind → Bool
  | .stackUnderflow | .invalidOperand _ => true
  | _ => false

/-- The instruction puts a value on top of the operands itself. The result of a function is put
there when the function returns. -/
def Opcode.pushesOperand : Opcode → Bool
  | .const | .dup | .loadLocal | .getGlobal | .unary _ | .binary _ | .isType => true
  | .nop | .pop | .storeLocal | .setGlobal | .jump | .jumpIfFalse => false
  | .call | .callHost | .ret => false

/-- The text of the string constant that an instruction refers to, with replacement characters where
its bytes are no text. -/
def Instruction.Names (i : Instruction) (chunk : Chunk) (name : String) : Prop :=
  ∃ bytes, chunk.stringConstant? i.arg1 = some bytes ∧ name = Text.Utf8.decodeLossy bytes

/-- The kinds of trap that an instruction of a verified chunk can raise. -/
def Instruction.CanRaise (i : Instruction) (chunk : Chunk) : TrapKind → Prop
  | .divisionByZero => i.opcode = .binary .div ∨ i.opcode = .binary .mod
  | .typeMismatch op _ => op = i.opcode
  | .unknownGlobal name => i.opcode = .getGlobal ∧ i.Names chunk name
  | .unknownHostFunction name | .hostResultCount name _ | .hostFailed name _ =>
    i.opcode = .callHost ∧ i.Names chunk name
  | .hostArityMismatch name _ found =>
    i.opcode = .callHost ∧ i.Names chunk name ∧ found = i.arg2.toNat
  | .callDepthExceeded _ => i.opcode = .call ∨ i.opcode = .callHost
  | .stackOverflow _ => i.opcode.pushesOperand = true ∨ i.opcode = .call
  | .stackUnderflow | .invalidOperand _ => False

namespace Separate

/-- The trap is one that the instruction can raise, unless it misses an operand. -/
def Explains (chunk : Chunk) (i : Instruction) (kind : TrapKind) : Prop :=
  kind.isOperandFault = true ∨ i.CanRaise chunk kind

/-- The trap, if this is one, is explained. -/
def Accounts {α : Type} (chunk : Chunk) (i : Instruction) : Except TrapKind α → Prop
  | .error kind => Explains chunk i kind
  | .ok _ => True

section Instruction

variable {chunk : Chunk} {i : Instruction} {f : Frame} {limit under : Nat} {globals : Globals}

theorem Accounts.bind {α β : Type} {x : Except TrapKind α} {k : α → Except TrapKind β}
    (hx : Accounts chunk i x) (hk : ∀ a, Accounts chunk i (k a)) :
    Accounts chunk i (x >>= k) := by
  cases x with
  | ok a => exact hk a
  | error kind => exact hx

theorem Accounts.of_error {α : Type} {x : Except TrapKind α} {kind : TrapKind}
    (h : Accounts chunk i x) (hx : x = .error kind) : Explains chunk i kind := by
  rwa [hx] at h

theorem accounts_pop (operands : List Value) : Accounts chunk i (pop operands) := by
  cases operands with
  | nil => exact .inl rfl
  | cons value operands => trivial

theorem accounts_name (index : UInt16) : Accounts chunk i (name chunk index) := by
  rw [name]
  split
  · trivial
  · exact .inl rfl

theorem accounts_localAt (f : Frame) (index : UInt16) : Accounts chunk i (f.localAt index) := by
  rw [Frame.localAt]
  split
  · trivial
  · exact .inl rfl

theorem accounts_push (hop : i.opcode.pushesOperand = true) {operands : List Value}
    {value : Value} : Accounts chunk i (do
      let pushed ← f.push limit under operands value
      return (Flow.next, pushed, globals)) := by
  rw [Frame.push]
  split
  · exact .inr (.inl hop)
  · trivial

theorem accounts_unary {op : UnaryOp} (hop : i.opcode = .unary op) (a : Value) :
    Accounts chunk i (op.apply a) := by
  cases happly : op.apply a with
  | ok value => trivial
  | error kind =>
    rw [UnaryOp.apply_error happly]
    exact .inr hop.symm

theorem accounts_binary {op : BinaryOp} (hop : i.opcode = .binary op) (a b : Value) :
    Accounts chunk i (op.apply a b) := by
  cases happly : op.apply a b with
  | ok value => trivial
  | error kind =>
    right
    obtain rfl | ⟨found, rfl⟩ := BinaryOp.apply_error happly
    · rw [Instruction.CanRaise, hop]
      obtain rfl | rfl := BinaryOp.div_or_mod_of_apply_error happly
      · exact .inl rfl
      · exact .inr rfl
    · exact hop.symm

theorem accounts_exec : Accounts chunk i (f.exec chunk limit under globals i) := by
  unfold Frame.exec
  cases hop : i.opcode with
  | const =>
    dsimp only
    split
    · exact accounts_push (by rw [hop]; rfl)
    · exact .inl rfl
  | pop => exact (accounts_pop _).bind fun _ ↦ trivial
  | dup | isType => exact (accounts_pop _).bind fun _ ↦ accounts_push (by rw [hop]; rfl)
  | loadLocal => exact (accounts_localAt f _).bind fun _ ↦ accounts_push (by rw [hop]; rfl)
  | storeLocal => exact (accounts_localAt f _).bind fun _ ↦ (accounts_pop _).bind fun _ ↦ trivial
  | getGlobal =>
    dsimp only
    rw [name]
    cases hname : chunk.stringConstant? i.arg1 with
    | none => exact .inl rfl
    | some bytes =>
      dsimp only [bind, Except.bind]
      cases globals.get? bytes with
      | some value => exact accounts_push (by rw [hop]; rfl)
      | none => exact .inr ⟨hop, bytes, hname, rfl⟩
  | setGlobal => exact (accounts_name _).bind fun _ ↦ (accounts_pop _).bind fun _ ↦ trivial
  | unary op =>
    exact (accounts_pop _).bind fun _ ↦ (accounts_unary hop _).bind fun _ ↦
      accounts_push (by rw [hop]; rfl)
  | binary op =>
    exact (accounts_pop _).bind fun _ ↦ (accounts_pop _).bind fun _ ↦
      (accounts_binary hop _ _).bind fun _ ↦ accounts_push (by rw [hop]; rfl)
  | jumpIfFalse =>
    refine (accounts_pop _).bind fun (value, _) ↦ ?_
    cases value with
    | bool condition => cases condition <;> trivial
    | i64 | f64 | null | str => exact .inr hop.symm
  | nop | jump | call | callHost | ret => trivial

end Instruction

end Separate

end Bytecode
