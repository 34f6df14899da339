import Bytecode.Proofs.Separate.Lockstep
import Bytecode.Proofs.Separate.Traps
import Bytecode.Proofs.Verify.Names

/-!
# Verified bytecode never misses an operand

Bytecode of a verified chunk never runs out of operands and never refers to anything that does not
exist. Whatever host code does in between, and however deep calls are nested, no call fails by such
a trap.

## The invariant

A frame is *at* a place with a number of operands if its function can get there with that many and
if it has all the locals its function declares. Of a run it is kept that

* the frame that executes is at its next instruction with the operands it has;
* a frame that waits for another frame, or for a host function, is at the instruction after its call
  with one operand more, which will be the result.

A run keeps its chunk, so it does not matter that host code may load another one.
-/

namespace Bytecode

/-- Bytes are admitted if they are those of a chunk with nothing wrong. -/
theorem Machine.admit_eq_ok_iff {bytes : Bytes} {chunk : Chunk} :
    Machine.admit bytes = .ok chunk ↔
      bytes ≠ [] ∧ Chunk.decode bytes = .ok chunk ∧ chunk.Verified := by
  unfold Machine.admit Chunk.Verified
  constructor
  · intro h
    split at h
    · cases h
    rename_i hnonempty
    split at h
    · cases h
    rename_i found hdecode
    split at h
    · rename_i hverify
      cases h
      exact ⟨fun hnil ↦ hnonempty (List.isEmpty_iff.mpr hnil), hdecode, hverify⟩
    · cases h
  · rintro ⟨hnonempty, hdecode, hverify⟩
    rw [if_neg fun hempty ↦ hnonempty (List.isEmpty_iff.mp hempty), hdecode]
    dsimp only
    rw [hverify]

namespace Separate

variable {ν : Type}

/-! ## One instruction -/

/-- What an instruction comes to that started with `before` operands: it traps for another reason,
or it goes on where the verifier expects it with as many operands as the verifier expects. -/
def Behaves (i : Instruction) (before : Nat) : Except TrapKind (Flow × Frame × Globals) → Prop
  | .error kind => kind.isOperandFault = false
  | .ok (flow, f, _) =>
    match flow with
    | .next => i.opcode.isTerminator = false ∧ f.operands.length = i.depthAfter before
    | .jump target =>
      (i.opcode = .jump ∨ i.opcode = .jumpIfFalse) ∧ target = i.arg1.toNat ∧
        f.operands.length = i.depthAfter before
    | .call callee => i.opcode = .call ∧ callee = i.arg1.toNat
    | .host => i.opcode = .callHost
    | .ret => i.opcode = .ret

section Instruction

variable {chunk : Chunk} {function : FunctionDef} {i : Instruction} {f : Frame} {limit under : Nat}
  {globals : Globals}

theorem behaves_push {operands : List Value} {before : Nat} (value : Value)
    (hop : i.opcode.isTerminator = false) (hlength : operands.length + 1 = i.depthAfter before) :
    Behaves i before (do
      let pushed ← f.push limit under operands value
      return (.next, pushed, globals)) := by
  rw [Frame.push]
  split
  · rfl
  · exact ⟨hop, hlength⟩

theorem exec_behaves (hresolves : i.Resolves chunk function)
    (hlocals : f.locals.length = function.locals.toNat)
    (hpops : i.effect.pops ≤ f.operands.length) :
    Behaves i f.operands.length (f.exec chunk limit under globals i) := by
  rw [Instruction.Resolves] at hresolves
  rw [Instruction.effect] at hpops
  have hafter : i.depthAfter f.operands.length
      = f.operands.length - i.effect.pops + i.effect.pushes := rfl
  rw [Instruction.effect] at hafter
  unfold Frame.exec
  cases hop : i.opcode with
  | nop =>
    rw [hop] at hafter
    exact ⟨by rw [hop]; rfl, hafter.symm⟩
  | const =>
    rw [hop] at hresolves hafter
    rw [Array.getElem?_eq_getElem hresolves]
    exact behaves_push _ (by rw [hop]; rfl) hafter.symm
  | pop =>
    rw [hop] at hpops hafter
    obtain ⟨value, operands, hoperands⟩ := List.exists_cons_of_length_pos hpops
    rw [hoperands] at hafter ⊢
    exact ⟨by rw [hop]; rfl, hafter.symm⟩
  | dup =>
    rw [hop] at hpops hafter
    obtain ⟨value, operands, hoperands⟩ := List.exists_cons_of_length_pos hpops
    rw [hoperands] at hafter ⊢
    exact behaves_push value (by rw [hop]; rfl) hafter.symm
  | loadLocal =>
    rw [hop] at hresolves hafter
    rw [← hlocals] at hresolves
    rw [Frame.localAt, List.getElem?_eq_getElem hresolves]
    exact behaves_push _ (by rw [hop]; rfl) hafter.symm
  | storeLocal =>
    rw [hop] at hresolves hpops hafter
    rw [← hlocals] at hresolves
    obtain ⟨value, operands, hoperands⟩ := List.exists_cons_of_length_pos hpops
    rw [Frame.localAt, List.getElem?_eq_getElem hresolves]
    rw [hoperands] at hafter ⊢
    exact ⟨by rw [hop]; rfl, hafter.symm⟩
  | getGlobal =>
    rw [hop] at hresolves hafter
    obtain ⟨bytes, hname⟩ := hresolves
    rw [name, hname]
    dsimp only [bind, Except.bind]
    cases globals.get? bytes with
    | some value => exact behaves_push value (by rw [hop]; rfl) hafter.symm
    | none => rfl
  | setGlobal =>
    rw [hop] at hresolves hpops hafter
    obtain ⟨bytes, hname⟩ := hresolves
    obtain ⟨value, operands, hoperands⟩ := List.exists_cons_of_length_pos hpops
    rw [name, hname]
    rw [hoperands] at hafter ⊢
    exact ⟨by rw [hop]; rfl, hafter.symm⟩
  | unary op =>
    rw [hop] at hpops hafter
    obtain ⟨a, operands, hoperands⟩ := List.exists_cons_of_length_pos hpops
    rw [hoperands] at hafter ⊢
    change Behaves i _ (do
      let value ← op.apply a
      return (.next, ← f.push limit under operands value, globals))
    cases happly : op.apply a with
    | ok value => exact behaves_push value (by rw [hop]; rfl) hafter.symm
    | error kind =>
      rw [UnaryOp.apply_error happly]
      rfl
  | binary op =>
    rw [hop] at hpops hafter
    obtain ⟨b, rest, hrest⟩ := List.exists_cons_of_length_pos (Nat.lt_of_lt_of_le Nat.two_pos hpops)
    rw [hrest] at hpops hafter ⊢
    obtain ⟨a, operands, hoperands⟩ := List.exists_cons_of_length_pos (Nat.le_of_succ_le_succ hpops)
    rw [hoperands] at hafter ⊢
    change Behaves i _ (do
      let value ← op.apply a b
      return (.next, ← f.push limit under operands value, globals))
    cases happly : op.apply a b with
    | ok value => exact behaves_push value (by rw [hop]; rfl) hafter.symm
    | error kind =>
      obtain rfl | ⟨found, rfl⟩ := BinaryOp.apply_error happly
      · rfl
      · rfl
  | jump =>
    rw [hop] at hafter
    exact ⟨.inl hop, rfl, hafter.symm⟩
  | jumpIfFalse =>
    rw [hop] at hpops hafter
    obtain ⟨value, operands, hoperands⟩ := List.exists_cons_of_length_pos hpops
    rw [hoperands] at hafter ⊢
    cases value with
    | bool condition =>
      cases condition with
      | false => exact ⟨.inr hop, rfl, hafter.symm⟩
      | true => exact ⟨by rw [hop]; rfl, hafter.symm⟩
    | i64 | f64 | null | str => rfl
  | call => exact ⟨hop, rfl⟩
  | callHost => exact hop
  | ret => exact hop
  | isType =>
    rw [hop] at hpops hafter
    obtain ⟨value, operands, hoperands⟩ := List.exists_cons_of_length_pos hpops
    rw [hoperands] at hafter ⊢
    exact behaves_push _ (by rw [hop]; rfl) hafter.symm

end Instruction

/-! ## Runs -/

/-- The frame has its locals and can be at `pc` with `depth` operands. -/
def Frame.At (chunk : Chunk) (f : Frame) (pc depth : Nat) : Prop :=
  ∃ function, chunk.functions[f.function]? = some function ∧
    f.locals.length = function.locals.toNat ∧ Verify.Visits function.code pc depth

/-- The frames that wait for the executing one will have its result as one operand more. -/
def Run.WaitingAt (run : Run) : Prop :=
  ∀ f ∈ run.outer, f.At run.chunk f.pc (f.operands.length + 1)

/-- Every frame is at a place with as many operands as the verifier expects there. -/
def wellPlaced : RunProperty where
  admitted := Chunk.Verified
  executing run := run.chunk.Verified ∧
    run.frame.At run.chunk run.frame.pc run.frame.operands.length ∧ run.WaitingAt
  awaiting run := run.chunk.Verified ∧
    run.frame.At run.chunk (run.frame.pc + 1) (run.frame.operands.length + 1) ∧ run.WaitingAt
  ending outcome := ∀ trap, outcome = .error trap → trap.kind.isOperandFault = false

theorem wellPlaced_trap {run : Run} {kind : TrapKind} (h : kind.isOperandFault = false) :
    wellPlaced.OnTurn (run.trap kind : Turn ν) := by
  intro trap htrap
  cases htrap
  exact h

/-- A function that exists is refused only for want of resources. -/
theorem enter_at {chunk : Chunk} {index : Nat} {function : FunctionDef}
    (hfunction : chunk.functions[index]? = some function) (limits : Limits) (under depth : Nat)
    (arguments : List Value) :
    match Frame.enter limits chunk index under depth arguments with
    | .ok f => f.At chunk f.pc f.operands.length
    | .error kind => kind.isOperandFault = false := by
  rw [Frame.enter, hfunction]
  dsimp only
  by_cases hdepth : limits.callDepth ≤ depth
  · rw [if_pos hdepth]
    rfl
  · rw [if_neg hdepth]
    by_cases hstack : limits.stackDepth < under + function.locals.toNat
    · rw [if_pos hstack]
      rfl
    · rw [if_neg hstack]
      exact ⟨function, hfunction, length_freshLocals _ _, .start⟩

/-- The executing frame is at instruction `i` of `function`. -/
structure Run.Located (run : Run) (function : FunctionDef) (i : Instruction) : Prop where
  found : run.chunk.functions[run.frame.function]? = some function
  instruction : function.code[run.frame.pc]? = some i
  sound : function.Sound run.chunk
  locals : run.frame.locals.length = function.locals.toNat
  visits : Verify.Visits function.code run.frame.pc run.frame.operands.length
  fits : i.Fits run.frame.operands.length

theorem exists_located {run : Run} (hverified : run.chunk.Verified)
    (hat : run.frame.At run.chunk run.frame.pc run.frame.operands.length) :
    ∃ function i, run.Located function i := by
  obtain ⟨function, hfunction, hlocals, hvisits⟩ := hat
  have hsound := Verify.sound_of_verified hverified hfunction
  obtain ⟨i, hi, hfits⟩ := hsound.fits hvisits
  exact ⟨function, i, hfunction, hi, hsound, hlocals, hvisits, hfits⟩

namespace Run.Located

variable {run : Run} {function : FunctionDef} {i : Instruction} (h : run.Located function i)

include h

theorem instruction?_eq :
    run.chunk.instruction? run.frame.function run.frame.pc = some i := by
  rw [Chunk.instruction?, h.found]
  exact h.instruction

theorem resolves : i.Resolves run.chunk function :=
  h.sound.resolves h.instruction

/-- A frame of the same function is where one of the successors expects it. -/
theorem at_successor {f : Frame} {pc : Nat}
    (hpc : pc ∈ i.successors run.frame.pc function.code.size)
    (hfunction : f.function = run.frame.function)
    (hlocals : f.locals.length = run.frame.locals.length) :
    f.At run.chunk pc (i.depthAfter run.frame.operands.length) := by
  refine ⟨function, ?_, ?_, h.visits.next h.instruction h.fits hpc⟩
  · rw [hfunction, h.found]
  · rw [hlocals, h.locals]

theorem following_mem (hop : i.opcode.isTerminator = false) :
    run.frame.pc + 1 ∈ i.successors run.frame.pc function.code.size :=
  i.following_mem_successors hop (h.sound.continues h.instruction hop)

/-- A frame that has given away its arguments is where it will be with the result. -/
theorem at_return {f : Frame} (hop : i.opcode = .call ∨ i.opcode = .callHost)
    (hfunction : f.function = run.frame.function)
    (hlocals : f.locals.length = run.frame.locals.length) :
    f.At run.chunk (run.frame.pc + 1) ((run.frame.operands.drop i.arg2.toNat).length + 1) := by
  have hafter : i.depthAfter run.frame.operands.length
      = (run.frame.operands.drop i.arg2.toNat).length + 1 := by
    rcases hop with hop | hop <;>
      rw [Instruction.depthAfter, Instruction.effect, hop, List.length_drop]
  have hnext : i.opcode.isTerminator = false := by
    rcases hop with hop | hop <;> rw [hop] <;> rfl
  rw [← hafter]
  exact h.at_successor (h.following_mem hnext) hfunction hlocals

end Run.Located

/-! ## Keeping the invariant -/

section Turn

variable {run : Run} {function : FunctionDef} {i : Instruction}

theorem wellPlaced_callTurn (s : Shared ν) (below depth : Nat) (hverified : run.chunk.Verified)
    (hlocated : run.Located function i) (hwaiting : run.WaitingAt) (hop : i.opcode = .call) :
    wellPlaced.OnTurn (run.callTurn s below depth i.arg1.toNat) := by
  have hresolves := hlocated.resolves
  rw [Instruction.Resolves, hop] at hresolves
  obtain ⟨callee, hcallee, harity⟩ := hresolves
  have hpops := hlocated.fits.1
  rw [Instruction.effect, hop] at hpops
  have hfunctionArity : run.chunk.functionArity i.arg1.toNat = i.arg2.toNat := by
    rw [Chunk.functionArity, hcallee, ← harity]
  rw [Run.callTurn, hfunctionArity]
  dsimp only
  rw [if_neg (Nat.not_lt.mpr hpops)]
  have henter := enter_at hcallee s.limits
    (below + ((run.dropOperands i.arg2.toNat).goto (run.frame.pc + 1)).values.length)
    (depth + run.depth) (run.topOperands i.arg2.toNat)
  split
  · rename_i hkind
    rw [hkind] at henter
    exact wellPlaced_trap henter
  · rename_i hframe
    rw [hframe] at henter
    refine ⟨hverified, henter, fun f hf ↦ ?_⟩
    -- The caller joins the frames that wait.
    rcases List.mem_cons.mp hf with rfl | hf
    · exact hlocated.at_return (.inl hop) rfl rfl
    · exact hwaiting f hf

theorem wellPlaced_hostTurn (s : Shared ν) (depth : Nat) (hverified : run.chunk.Verified)
    (hlocated : run.Located function i) (hwaiting : run.WaitingAt) (hop : i.opcode = .callHost) :
    wellPlaced.OnTurn (run.hostTurn s depth i) := by
  have hresolves := hlocated.resolves
  rw [Instruction.Resolves, hop] at hresolves
  obtain ⟨bytes, hname⟩ := hresolves
  have hpops := hlocated.fits.1
  rw [Instruction.effect, hop] at hpops
  rw [Run.hostTurn, hname]
  dsimp only
  split
  · exact wellPlaced_trap rfl
  split
  · exact wellPlaced_trap rfl
  rw [if_neg (Nat.not_lt.mpr hpops)]
  split
  · exact wellPlaced_trap rfl
  · exact ⟨hverified, hlocated.at_return (.inr hop) rfl rfl, hwaiting⟩

theorem wellPlaced_returnTurn (s : Shared ν) (hverified : run.chunk.Verified)
    (hlocated : run.Located function i) (hwaiting : run.WaitingAt) (hop : i.opcode = .ret) :
    wellPlaced.OnTurn (run.returnTurn s) := by
  have hpops := hlocated.fits.1
  rw [Instruction.effect, hop] at hpops
  obtain ⟨value, operands, hoperands⟩ := List.exists_cons_of_length_pos hpops
  rw [Run.returnTurn, hoperands]
  cases houter : run.outer with
  | nil =>
    intro trap htrap
    cases htrap
  | cons frame outer =>
    rw [Run.WaitingAt, houter] at hwaiting
    exact ⟨hverified, hwaiting frame List.mem_cons_self,
      fun f hf ↦ hwaiting f (List.mem_cons_of_mem _ hf)⟩

theorem wellPlaced_turn (s : Shared ν) (below depth : Nat) (h : wellPlaced.executing run) :
    wellPlaced.OnTurn (run.turn s below depth) := by
  obtain ⟨hverified, hat, hwaiting⟩ := h
  obtain ⟨function, i, hlocated⟩ := exists_located hverified hat
  have hstays := @exec_stays s.limits.stackDepth s.globals run.chunk
    (below + (stacked run.outer).length + run.frame.locals.length) i run.frame
  have hbehaves := @exec_behaves run.chunk function i run.frame s.limits.stackDepth
    (below + (stacked run.outer).length + run.frame.locals.length) s.globals hlocated.resolves
    hlocated.locals hlocated.fits.1
  rw [Run.turn, hlocated.instruction?_eq]
  dsimp only
  split
  · rename_i hexec
    rw [hexec] at hbehaves
    exact wellPlaced_trap hbehaves
  rename_i flow frame globals hexec
  rw [hexec] at hstays hbehaves
  obtain ⟨hfunction, -, hlocals, -⟩ := hstays
  -- Within a function the verifier's successors are the flows; across functions `WaitingAt` is.
  cases flow with
  | next =>
    obtain ⟨hop, hlength⟩ := hbehaves
    refine ⟨hverified, ?_, hwaiting⟩
    change Frame.At _ _ _ frame.operands.length
    rw [hlength]
    exact hlocated.at_successor (hlocated.following_mem hop) hfunction hlocals
  | jump target =>
    obtain ⟨hop, rfl, hlength⟩ := hbehaves
    refine ⟨hverified, ?_, hwaiting⟩
    change Frame.At _ _ _ frame.operands.length
    rw [hlength]
    exact hlocated.at_successor (i.target_mem_successors hop _ _) hfunction hlocals
  | call callee =>
    obtain ⟨hop, rfl⟩ := hbehaves
    exact wellPlaced_callTurn s below depth hverified hlocated hwaiting hop
  | host => exact wellPlaced_hostTurn s depth hverified hlocated hwaiting hbehaves
  | ret => exact wellPlaced_returnTurn s hverified hlocated hwaiting hbehaves

end Turn

theorem wellPlaced_kept : wellPlaced.Kept ν where
  loaded hadmit := (Machine.admit_eq_ok_iff.mp hadmit).2.2
  enter limits under depth arguments hverified hindex := by
    have henter := enter_at (Array.getElem?_eq_getElem hindex) limits under depth arguments
    cases hframe : Frame.enter limits _ _ under depth arguments with
    | ok frame =>
      rw [hframe] at henter
      exact ⟨hverified, henter, fun f hf ↦ absurd hf List.not_mem_nil⟩
    | error kind =>
      rw [hframe] at henter
      intro trap htrap
      cases htrap
      exact henter
  turn s below depth h := wellPlaced_turn s below depth h
  accept {run} s name status results h := by
    obtain ⟨hverified, hat, hwaiting⟩ := h
    unfold Run.accept
    split
    · exact wellPlaced_trap rfl
    split
    · exact ⟨hverified, hat, hwaiting⟩
    · exact wellPlaced_trap rfl

end Separate

/-! ## Calls -/

open Separate

variable {ν : Type}

/-- The call failed because bytecode missed an operand. -/
def Reply.isOperandFault : Reply → Bool
  | .error (.trapped trap) => trap.kind.isOperandFault
  | _ => false

theorem isOperandFault_outcome {outcome : Outcome} (h : wellPlaced.ending outcome) :
    outcome.reply.isOperandFault = false := by
  cases outcome with
  | ok value => rfl
  | error trap => exact h trap rfl

theorem codeMachine_not_operandFault {s s' : Shared ν} {below passed : List Value} {depth : Nat}
    {name : String} {chunk : Chunk} {index : Nat} {outcome : Outcome}
    (hloaded : wellPlaced.OnShared s) (hverified : chunk.Verified)
    (hindex : index < chunk.functions.size)
    (hends : (codeMachine s below depth name chunk index passed).Ends ⟨below, depth⟩ s'
      (.code outcome)) : outcome.reply.isOperandFault = false := by
  obtain ⟨n, hn⟩ := hends
  have hstart : wellPlaced.OnProgress (codeMachine s below depth name chunk index passed) :=
    RunProperty.onProgress_enter wellPlaced_kept _ passed hloaded hverified hindex trivial
  have hafter := RunProperty.onProgress_after wellPlaced_kept ⟨below, depth⟩ hstart n
  rw [hn] at hafter
  exact isOperandFault_outcome hafter.2

theorem call_not_operandFault {w w' : World ν} {name : String} {arguments : Nat} {reply : Reply}
    (hbase : w.machine.stack.base ≤ w.machine.stack.values.size)
    (hloaded : ∀ chunk, w.machine.chunk = some chunk → chunk.Verified)
    (hreturn : w.CallReturns name arguments reply w') : reply.isOperandFault = false := by
  cases hdispatch : w.machine.dispatch name arguments with
  | error failure =>
    obtain ⟨rfl, -⟩ := callReturns_of_dispatch_error hdispatch hreturn
    cases failure with
    | trapped trap => exact absurd rfl ((dispatch_error hdispatch).1 trap)
    | _ => rfl
  | ok callee =>
    obtain ⟨hheight, hcallee⟩ := dispatch_ok hdispatch
    obtain ⟨s, below, passed, base, depth, hbelow, rfl, rfl⟩ := exists_arguments hbase hheight
    cases callee with
    | code chunk index =>
      obtain ⟨hchunk, hindex, -⟩ := hcallee
      obtain ⟨s', outcome, hends, rfl, -⟩ := (callReturns_code_iff hbelow hdispatch).mp hreturn
      exact codeMachine_not_operandFault hloaded (hloaded chunk hchunk) hindex hends
    | host function =>
      by_cases hdepth : s.limits.callDepth ≤ depth
      · obtain ⟨rfl, -⟩ := callReturns_of_depth_exceeded hdispatch hdepth hreturn
        rfl
      · obtain ⟨s', status, window, -, rfl, -⟩ :=
          (callReturns_host_iff hbelow hdispatch hdepth).mp hreturn
        rw [hostReply]
        cases status.isOk <;> rfl

/-- From here on, no call that host code makes fails because bytecode missed an operand. -/
def Config.NoOperandFault (c : Config ν) : Prop :=
  ∀ (w : World ν) (name : String) (arguments : Nat) (next : Reply → HostProgram ν)
    (calls : List (HostCall ν)), c.Reaches ⟨w, .host (.call name arguments next), calls⟩ →
    ∀ reply w', w.CallReturns name arguments reply w' → reply.isOperandFault = false

theorem noOperandFault_onto {own : Separate.Config ν .host} (h : wellPlaced.OnConfig own) :
    (own.onto .nothing).NoOperandFault := by
  intro w name arguments next calls hreach reply w' hreturn
  obtain ⟨own', hown, hwell⟩ := exists_onto_of_reaches wellPlaced_kept h hreach
  refine call_not_operandFault (Separate.Config.base_le_onto hown) ?_ hreturn
  obtain ⟨s, control⟩ := own'
  cases control with
  | host window program waiting =>
    cases hown
    exact hwell.1
  | code run waiting => cases hown

/-! ## Entering a function -/

section Entering

variable {s : Shared ν} {kept passed : List Value} {waiting : Waiting ν .host .host} {chunk : Chunk}
  {index : Nat} (hloaded : wellPlaced.OnShared s) (hverified : chunk.Verified)
  (hindex : index < chunk.functions.size) (harity : chunk.functionArity index = passed.length)

include hloaded hverified hindex harity

theorem enter_not_operandFault {name : String} {reply : Reply} {w : World ν}
    (hreturn : (s.hostWorld .nothing (kept ++ passed) waiting).CodeReturns name chunk index
      passed.length reply w) : reply.isOperandFault = false := by
  have hbase : (waiting.values []).length ≤ (waiting.values [] ++ kept).length := by simp
  have hworld : s.hostWorld .nothing (kept ++ passed) waiting
      = s.world ⟨(waiting.values [] ++ kept ++ passed).toArray, (waiting.values []).length⟩
          (waiting.depth 0) := by
    rw [List.append_assoc]
    rfl
  rw [hworld] at hreturn
  obtain ⟨s', outcome, hends, rfl, -⟩ := (codeReturns_iff hbase harity).mp hreturn
  exact codeMachine_not_operandFault hloaded hverified hindex hends

theorem enter_noOperandFault (hwaiting : wellPlaced.OnWaiting waiting) (name : String)
    (resume : Reply → HostProgram ν) :
    (Config.callCode (s.hostWorld .nothing (kept ++ passed) waiting) (waiting.calls .nothing) name
      chunk index passed.length resume).NoOperandFault := by
  let g : Ground := (Outside.nothing : Outside ν).toGround
  have honto := callCode_onto .nothing s passed (.entry ⟨kept, resume⟩ waiting) name harity
  have henter := @RunProperty.onProgress_enter ν .host wellPlaced wellPlaced_kept g
    (s.log (.codeCalled name passed.length)) chunk index passed (.entry ⟨kept, resume⟩ waiting)
    hloaded hverified hindex hwaiting
  rw [Waiting.values, List.append_assoc] at honto
  cases hown : Separate.Config.enter g (s.log (.codeCalled name passed.length)) chunk index passed
      (.entry ⟨kept, resume⟩ waiting) with
  | more own =>
    rw [hown] at henter honto
    have hcode : Config.callCode (s.hostWorld .nothing (kept ++ passed) waiting)
        (waiting.calls .nothing) name chunk index passed.length resume = own.onto .nothing :=
      Progress.more.inj honto
    rw [hcode]
    exact noOperandFault_onto henter
  | ended s' result =>
    -- With nothing outside, a machine that has ended has halted, and a call goes on.
    cases result
    rw [hown] at honto
    cases honto

end Entering

/-- Verified bytecode never misses an operand: in no state that embedding code can bring about, with
any limits, globals and host functions, for no function, and in no call made while it runs. -/
theorem verified_bytecode_never_misses_operand {chunk : Chunk} (hverified : chunk.Verified)
    {w : World ν} {program : HostProgram ν} {calls : List (HostCall ν)}
    (hreach : Config.Reachable ⟨w, .host program, calls⟩) (limits : Limits) (globals : Globals)
    (hosts : HostRegistry ν) :
    let w₀ : World ν :=
      { w with machine := { w.machine with chunk := some chunk, limits, globals, hosts } }
    (∀ program', Config.NoOperandFault ⟨w₀, .host program', calls⟩) ∧
      ∀ index < chunk.functions.size, chunk.functionArity index ≤ w₀.machine.stack.height →
        ∀ name, (∀ reply w', w₀.CodeReturns name chunk index (chunk.functionArity index) reply w' →
            reply.isOperandFault = false) ∧
          ∀ resume, (Config.callCode w₀ calls name chunk index (chunk.functionArity index)
            resume).NoOperandFault := by
  intro w₀
  obtain ⟨⟨s, control⟩, hown, -, hcontrol⟩ := exists_onto_of_reachable wellPlaced_kept hreach
  cases control with
  | code run waiting => cases hown
  | host window program waiting =>
    cases hown
    have hloaded : wellPlaced.OnShared { s with chunk := some chunk, limits, globals, hosts } := by
      intro loaded heq
      cases heq
      exact hverified
    refine ⟨fun program' ↦ ?_, fun index hindex hheight name ↦ ?_⟩
    · exact @noOperandFault_onto ν ⟨_, .host window program' waiting⟩ ⟨hloaded, hcontrol⟩
    · change _ ≤ (Stack.windowed _ window).height at hheight
      rw [Stack.height_windowed] at hheight
      obtain ⟨kept, passed, rfl, hpassed⟩ := Stack.exists_append_of_le_length hheight
      rw [← hpassed]
      exact ⟨fun reply w' hreturn ↦
          enter_not_operandFault hloaded hverified hindex hpassed.symm hreturn,
        enter_noOperandFault hloaded hverified hindex hpassed.symm hcontrol name⟩

/-! ## A chunk that calls itself -/

namespace Recursive

/-- A function that returns its argument if that is true and calls itself with it otherwise. -/
def function : FunctionDef :=
  ⟨"again", 1, 1, #[{ opcode := .loadLocal }, { opcode := .jumpIfFalse, arg1 := 4 },
    { opcode := .loadLocal }, { opcode := .ret }, { opcode := .loadLocal },
    { opcode := .call, arg1 := 0, arg2 := 1 }, { opcode := .ret }]⟩

def chunk : Chunk :=
  ⟨#[], #[function]⟩

theorem verified : chunk.Verified :=
  Verify.verified_of_single (by decide) (by decide) (by decide) (by decide) (by decide)

/-- A machine with one value on its stack, and perhaps with a chunk. -/
def world (loaded : Option Chunk) : World Empty :=
  ⟨{ stack := ⟨#[.bool false], 0⟩, chunk := loaded }, {}, #[]⟩

theorem reachable : Config.Reachable ⟨world none, .host (.done .ok), []⟩ := by
  let program : HostProgram Empty := .act (.push (.bool false)) fun _ ↦ .done .ok
  have hstart : Config.Reachable (.start ⟨{}, {}, #[]⟩ program) := .fresh {} {} #[] program
  exact hstart.step rfl

end Recursive

theorem verified_bytecode_never_misses_operand_recursive :
    Recursive.chunk.Verified ∧
      Config.Reachable ⟨Recursive.world none, .host (.done .ok), []⟩ ∧
      (∀ program', Config.NoOperandFault
        ⟨Recursive.world (some Recursive.chunk), .host program', []⟩) ∧
      ∀ reply w', (Recursive.world (some Recursive.chunk)).CodeReturns "again" Recursive.chunk 0 1
        reply w' → reply.isOperandFault = false := by
  obtain ⟨hcalls, henter⟩ := verified_bytecode_never_misses_operand Recursive.verified
    Recursive.reachable {} {} {}
  refine ⟨Recursive.verified, Recursive.reachable, hcalls, ?_⟩
  exact (henter 0 (by decide) (by decide) "again").1

end Bytecode
