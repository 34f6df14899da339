import Bytecode.Proofs.Separate.Placement

/-!
# One instruction on one stack and in its own frame

While a frame executes above the values `below`, the stack holds `below`, the locals and the
operands in this order. An instruction does the same there as in the frame alone: the same flow,
the same values and globals, or the same trap. After a trap the operands that the instruction had
already taken are gone from the stack; what lies below the frame is still there, and nothing else
matters then.

The comparison follows the instruction's own text: there is one lemma for each way in which an
instruction can go on after looking at the frame, and an instruction is put together from these.
-/

namespace Bytecode.Separate

/-- The values of the machine while `f` executes above `below`. -/
def Frame.store (f : Frame) (below : List Value) (base : Nat) (globals : Globals) : Store :=
  ⟨⟨(below ++ f.values).toArray, base⟩, globals⟩

/-- What the single stack and the frame alone make of an instruction. -/
inductive Agrees (below : List Value) (base : Nat) (globals : Globals) :
    EStateM.Result TrapKind Store Flow → Except TrapKind (Flow × Frame × Globals) → Prop where
  | ok (flow : Flow) (f : Frame) (after : Globals) :
    Agrees below base globals (.ok flow (f.store below base after)) (.ok (flow, f, after))
  | error (kind : TrapKind) (rest : List Value) :
    Agrees below base globals (.error kind ⟨⟨(below ++ rest).toArray, base⟩, globals⟩) (.error kind)

variable {below : List Value} {base limit : Nat} {globals : Globals} {f : Frame}

theorem Agrees.trap (kind : TrapKind) :
    Agrees below base globals (.error kind (f.store below base globals)) (.error kind) :=
  .error kind f.values

/-! ## Operands -/

theorem agrees_pop {k : Value → Exec Flow}
    {k' : Value × List Value → Except TrapKind (Flow × Frame × Globals)}
    (h : ∀ value operands, f.operands = value :: operands →
      Agrees below base globals (k value (Frame.store { f with operands } below base globals))
        (k' (value, operands))) :
    Agrees below base globals
      ((Exec.pop (f.placed below.length) >>= k) (f.store below base globals))
      (pop f.operands >>= k') := by
  rcases hops : f.operands with _ | ⟨value, operands⟩
  · have hle : (below ++ f.values).length ≤ (f.placed below.length).floor := by
      simp [Frame.values, Frame.placed, hops]
    have hpop : Exec.pop (f.placed below.length) (f.store below base globals)
        = .error .stackUnderflow (f.store below base globals) := by
      simp only [Exec.pop, Frame.store, Stack.popAbove_of_length_le hle]
    simp only [bind, EStateM.bind, hpop]
    exact .trap _
  · have hvalues : below ++ f.values = below ++ Frame.values { f with operands } ++ [value] := by
      simp [Frame.values, hops]
    have hle : (f.placed below.length).floor
        ≤ (below ++ Frame.values { f with operands }).length := by
      simp [Frame.values, Frame.placed]
    have hpop : Exec.pop (f.placed below.length) (f.store below base globals)
        = .ok value (Frame.store { f with operands } below base globals) := by
      simp only [Exec.pop, Frame.store, hvalues, Stack.popAbove_concat value hle]
    simp only [bind, EStateM.bind, hpop]
    exact h value operands hops

theorem agrees_peek {k : Value → Exec Flow}
    {k' : Value × List Value → Except TrapKind (Flow × Frame × Globals)}
    (h : ∀ value operands, f.operands = value :: operands →
      Agrees below base globals (k value (f.store below base globals)) (k' (value, operands))) :
    Agrees below base globals
      ((Exec.peek (f.placed below.length) >>= k) (f.store below base globals))
      (pop f.operands >>= k') := by
  rcases hops : f.operands with _ | ⟨value, operands⟩
  · have hpeek : Exec.peek (f.placed below.length) (f.store below base globals)
        = .error .stackUnderflow (f.store below base globals) := by
      simp [Exec.peek, Frame.store, Frame.values, Frame.placed, hops]
    simp only [bind, EStateM.bind, hpeek]
    exact .trap _
  · have hpeek : Exec.peek (f.placed below.length) (f.store below base globals)
        = .ok value (f.store below base globals) := by
      have hvalues : below ++ f.values = below ++ (f.locals ++ operands.reverse) ++ [value] := by
        simp [Frame.values, hops]
      have hlt : ¬(below ++ (f.locals ++ operands.reverse) ++ [value]).length
          ≤ (f.placed below.length).floor := by
        simp [Frame.placed]
      simp only [Exec.peek, Frame.store, hvalues, Stack.size_mk, if_neg hlt, Stack.slot?_top]
    simp only [bind, EStateM.bind, hpeek]
    exact h value operands hops

/-- The operands may have changed since the frame was last looked at. -/
theorem agrees_push (operands : List Value) (value : Value) :
    Agrees below base globals
      ((do Exec.push limit value; return Flow.next)
        (Frame.store { f with operands } below base globals))
      (do
        let pushed ← f.push limit (below.length + f.locals.length) operands value
        return (.next, pushed, globals)) := by
  have hsize : (below ++ Frame.values { f with operands }).length
      = below.length + f.locals.length + operands.length := by
    simp [Frame.values, Nat.add_assoc]
  by_cases hlimit : limit ≤ below.length + f.locals.length + operands.length
  · have hpush : Exec.push limit value (Frame.store { f with operands } below base globals)
        = .error (.stackOverflow limit) (Frame.store { f with operands } below base globals) := by
      simp only [Exec.push, Frame.store, Stack.size_mk, hsize, if_pos hlimit]
    simp only [bind, EStateM.bind, hpush, Frame.push, if_pos hlimit]
    exact .trap _
  · have hpush : Exec.push limit value (Frame.store { f with operands } below base globals)
        = .ok () (Frame.store { f with operands := value :: operands } below base globals) := by
      simp only [Exec.push, Frame.store, Stack.size_mk, hsize, if_neg hlimit, Stack.push_mk]
      simp [Frame.values]
    simp only [bind, EStateM.bind, hpush, Frame.push, if_neg hlimit]
    exact .ok _ _ _

/-! ## Locals, names and results -/

theorem agrees_localSlot {index : UInt16} {k : Nat → Exec Flow}
    {k' : Value → Except TrapKind (Flow × Frame × Globals)}
    (h : ∀ value, f.locals[index.toNat]? = some value →
      Agrees below base globals (k (below.length + index.toNat) (f.store below base globals))
        (k' value)) :
    Agrees below base globals
      ((Exec.localSlot (f.placed below.length) index >>= k) (f.store below base globals))
      (f.localAt index >>= k') := by
  by_cases hlt : index.toNat < f.locals.length
  · have hget : f.locals[index.toNat]? = some f.locals[index.toNat] := List.getElem?_eq_getElem hlt
    have hslot : Exec.localSlot (f.placed below.length) index (f.store below base globals)
        = .ok (below.length + index.toNat) (f.store below base globals) := by
      simp only [Exec.localSlot, Frame.placed, Nat.add_lt_add_iff_left, if_pos hlt]
      rfl
    simp only [bind, EStateM.bind, hslot, Frame.localAt, hget]
    exact h _ hget
  · have hget : f.locals[index.toNat]? = none := List.getElem?_eq_none (Nat.le_of_not_lt hlt)
    have hslot : Exec.localSlot (f.placed below.length) index (f.store below base globals)
        = .error (.invalidOperand index) (f.store below base globals) := by
      simp only [Exec.localSlot, Frame.placed, Nat.add_lt_add_iff_left, if_neg hlt]
      rfl
    simp only [bind, EStateM.bind, hslot, Frame.localAt, hget]
    exact .trap _

theorem slot_local {index : UInt16} {value : Value} (h : f.locals[index.toNat]? = some value) :
    Exec.slot (below.length + index.toNat) index (f.store below base globals)
      = .ok value (f.store below base globals) := by
  obtain ⟨hlt, -⟩ := List.getElem?_eq_some_iff.mp h
  have hget : (below ++ f.values)[below.length + index.toNat]? = some value := by
    rw [List.getElem?_append_right (Nat.le_add_right _ _), Nat.add_sub_cancel_left, Frame.values,
      List.getElem?_append_left hlt, h]
  simp only [Exec.slot, Frame.store, Stack.slot?, List.getElem?_toArray, hget]

theorem agrees_setSlot {index : Nat} (operands : List Value) (value : Value)
    (h : index < f.locals.length) :
    Agrees below base globals
      ((do Exec.setSlot (below.length + index) value; return Flow.next)
        (Frame.store { f with operands } below base globals))
      (.ok (.next, { f with locals := f.locals.set index value, operands }, globals)) := by
  have hset : Exec.setSlot (below.length + index) value
        (Frame.store { f with operands } below base globals)
      = .ok () (Frame.store { f with locals := f.locals.set index value, operands } below base
          globals) := by
    simp [Exec.setSlot, Frame.store, Frame.values, Stack.setSlot, h]
  simp only [bind, EStateM.bind, hset]
  exact .ok _ _ _

theorem agrees_name {chunk : Chunk} {index : UInt16} {k : Bytes → Exec Flow}
    {k' : Bytes → Except TrapKind (Flow × Frame × Globals)}
    (h : ∀ bytes, Agrees below base globals (k bytes (f.store below base globals)) (k' bytes)) :
    Agrees below base globals ((Exec.name chunk index >>= k) (f.store below base globals))
      (name chunk index >>= k') := by
  simp only [Exec.name, name]
  cases chunk.stringConstant? index with
  | some bytes => exact h bytes
  | none => exact .trap _

theorem agrees_result {operands : List Value} {computed : Except TrapKind Value}
    {k : Value → Exec Flow} {k' : Value → Except TrapKind (Flow × Frame × Globals)}
    (h : ∀ value, Agrees below base globals
      (k value (Frame.store { f with operands } below base globals)) (k' value)) :
    Agrees below base globals
      ((Exec.result computed >>= k) (Frame.store { f with operands } below base globals))
      (computed >>= k') := by
  cases computed with
  | ok value => exact h value
  | error kind => exact .trap _

/-! ## All instructions -/

/-- An instruction does the same on the stack as in its own frame. -/
theorem exec_placed (chunk : Chunk) (i : Instruction) (f : Frame) :
    Agrees below base globals
      (i.exec chunk limit (f.placed below.length) (f.store below base globals))
      (f.exec chunk limit (below.length + f.locals.length) globals i) := by
  unfold Instruction.exec Frame.exec
  cases i.opcode with
  | nop => exact .ok _ _ _
  | const =>
    cases chunk.constants[i.arg1.toNat]? with
    | some value => exact agrees_push f.operands value
    | none => exact .trap _
  | pop => exact agrees_pop fun _ _ _ ↦ .ok _ _ _
  | dup => exact agrees_peek fun top _ _ ↦ agrees_push f.operands top
  | loadLocal =>
    refine agrees_localSlot fun value hget ↦ ?_
    simp only [bind, EStateM.bind, slot_local hget]
    exact agrees_push f.operands value
  | storeLocal =>
    refine agrees_localSlot fun old hget ↦ agrees_pop fun value operands _ ↦ ?_
    obtain ⟨hlt, -⟩ := List.getElem?_eq_some_iff.mp hget
    exact agrees_setSlot operands value hlt
  | getGlobal =>
    refine agrees_name fun bytes ↦ ?_
    simp only [bind, EStateM.bind, Exec.global, Frame.store]
    cases globals.get? bytes with
    | some value => exact agrees_push f.operands value
    | none => exact .trap _
  | setGlobal => exact agrees_name fun bytes ↦ agrees_pop fun value operands _ ↦ .ok _ _ _
  | unary op =>
    exact agrees_pop fun a operands _ ↦ agrees_result fun value ↦ agrees_push operands value
  | binary op =>
    -- Where the first operand is missing, the second is gone from the stack when the trap occurs.
    refine agrees_pop fun b operands _ ↦ ?_
    refine agrees_pop fun a operands' h ↦ ?_
    exact agrees_result fun value ↦ agrees_push operands' value
  | jump => exact .ok _ _ _
  | jumpIfFalse =>
    refine agrees_pop fun value operands _ ↦ ?_
    rcases value with _ | _ | ⟨_ | _⟩ | _ | _
    all_goals first | exact .ok _ _ _ | exact .trap _
  | call => exact .ok _ _ _
  | callHost => exact .ok _ _ _
  | ret => exact .ok _ _ _
  | isType => exact agrees_peek fun top _ _ ↦ agrees_push f.operands _

/-! ## What an instruction leaves alone -/

/-- An instruction that succeeds leaves its frame in place; one that leaves the frame leaves all its
values alone. -/
def Stays (f : Frame) (globals : Globals) : Except TrapKind (Flow × Frame × Globals) → Prop
  | .error _ => True
  | .ok (flow, after, globals') =>
    after.function = f.function ∧ after.pc = f.pc ∧ after.locals.length = f.locals.length ∧
      match flow with
      | .next | .jump _ => True
      | .call _ | .host | .ret => after = f ∧ globals' = globals

theorem Stays.bind {α : Type} {x : Except TrapKind α}
    {k : α → Except TrapKind (Flow × Frame × Globals)} (h : ∀ a, Stays f globals (k a)) :
    Stays f globals (x >>= k) := by
  cases x with
  | ok a => exact h a
  | error kind => exact trivial

theorem stays_push {under : Nat} {operands : List Value} {value : Value} :
    Stays f globals (do
      let pushed ← f.push limit under operands value
      return (.next, pushed, globals)) := by
  simp only [Frame.push]
  split
  · exact trivial
  · exact ⟨rfl, rfl, rfl, trivial⟩

theorem exec_stays (chunk : Chunk) (under : Nat) (i : Instruction) (f : Frame) :
    Stays f globals (f.exec chunk limit under globals i) := by
  unfold Frame.exec
  cases i.opcode with
  | const =>
    cases chunk.constants[i.arg1.toNat]? with
    | some value => exact stays_push
    | none => exact trivial
  | pop => exact .bind fun _ ↦ ⟨rfl, rfl, rfl, trivial⟩
  | dup | isType | loadLocal => exact .bind fun _ ↦ stays_push
  | storeLocal => exact .bind fun _ ↦ .bind fun _ ↦ ⟨rfl, rfl, by simp, trivial⟩
  | getGlobal =>
    refine .bind fun bytes ↦ ?_
    cases globals.get? bytes with
    | some value => exact stays_push
    | none => exact trivial
  | setGlobal => exact .bind fun _ ↦ .bind fun _ ↦ ⟨rfl, rfl, rfl, trivial⟩
  | unary op => exact .bind fun _ ↦ .bind fun _ ↦ stays_push
  | binary op => exact .bind fun _ ↦ .bind fun _ ↦ .bind fun _ ↦ stays_push
  | jumpIfFalse =>
    refine .bind fun (value, _) ↦ ?_
    rcases value with _ | _ | ⟨_ | _⟩ | _ | _
    all_goals first | exact trivial | exact ⟨rfl, rfl, rfl, trivial⟩
  | nop | jump => exact ⟨rfl, rfl, rfl, trivial⟩
  | call | callHost | ret => exact ⟨rfl, rfl, rfl, rfl, rfl⟩

end Bytecode.Separate
