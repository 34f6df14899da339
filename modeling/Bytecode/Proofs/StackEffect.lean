import Bytecode.Proofs.CallByName
import Bytecode.Proofs.GlobalWrites
import Bytecode.Proofs.StepCases

/-!
# Instructions and the table of stack effects

The verifier has a table that says how many operands an instruction takes, how many values it leaves
in their place and where execution may go on after it. The interpreter has its own text for each
instruction and never looks at the table. The two agree: whatever an instruction other than a call
or a return does to the stack is what the table says, no more and no less.

Little has to be given for that. The function must have passed its structural checks, the locals of
the frame must stand where they belong, and there must be as many operands as the table says the
instruction takes. The rest of the machine may be in any state, also in one that no embedding code
can bring about.

## How an instruction is watched

All instructions but one are over after a single step. The one that calls a host function is over
when the machine comes back from it (`Config.ComesBack`), with anything in between: the host
function may call bytecode, load another chunk or never return. That it cannot reach below its
window is what the machine with separate frames is for: the host function is a machine of its own,
and the stack of the caller is outside of it.
-/

namespace Bytecode

variable {ν : Type}

/-! ## The agreement -/

/-- The executing frame is at instruction `i` of `f`, which has passed the structural checks. The
frame lies in the window, its operands begin after its locals, and there are as many of them as the
instruction takes. -/
structure CodeRun.Poised (run : CodeRun ν) (w : World ν) (f : FunctionDef) (i : Instruction) :
    Prop where
  found : run.chunk.functions[run.frame.function]? = some f
  checks : Verify.checkFunction run.chunk (Verify.firstDefinitions run.chunk) f run.frame.function
    = []
  instruction : f.code[run.frame.pc]? = some i
  floor_eq : run.frame.floor = run.frame.base + f.locals.toNat
  base_le : w.machine.stack.base ≤ run.frame.base
  operands : run.frame.floor + i.effect.pops ≤ w.machine.stack.size

namespace Instruction

/-- What becomes of the values `kept` that lie below the operands `taken`, where `slot` is that of
the first local. A store puts its operand into a local. -/
def keep (i : Instruction) (slot : Nat) (taken kept : List Value) : List Value :=
  match i.opcode, taken with
  | .storeLocal, [value] => kept.set (slot + i.arg1.toNat) value
  | _, _ => kept

theorem keep_of_ne {i : Instruction} (hop : i.opcode ≠ .storeLocal) (slot : Nat)
    (taken kept : List Value) : i.keep slot taken kept = kept := by
  unfold keep
  split
  · exact absurd ‹_› hop
  · rfl

theorem keep_store {i : Instruction} (hop : i.opcode = .storeLocal) (slot : Nat) (value : Value)
    (kept : List Value) : i.keep slot [value] kept = kept.set (slot + i.arg1.toNat) value := by
  unfold keep
  rw [hop]

/-- The instruction has taken `taken` off the stack and put `pushed` in its place, as many values as
the table says each time. No other slot has changed, except for the local that a store has set. What
is looked at only, by a duplicate or a type test, is still there. -/
structure Exchanges (i : Instruction) (frame : Frame) (before after : Stack)
    (kept taken pushed : List Value) : Prop where
  before_eq : before.values.toList = kept ++ taken
  after_eq : after.values.toList = i.keep frame.base taken kept ++ pushed
  base_eq : after.base = before.base
  pops : taken.length = i.effect.pops
  pushes : pushed.length = i.effect.pushes
  local_lt : i.opcode = .storeLocal → frame.base + i.arg1.toNat < kept.length
  looks : i.opcode = .dup ∨ i.opcode = .isType → taken <+: pushed

end Instruction

namespace Config

/-- What instruction `i` of `f` may come to: it goes on where the table says, with the stack that
the table says, or it traps, but not for want of an operand. -/
inductive Complies (w : World ν) (run : CodeRun ν) (calls : List (HostCall ν)) (f : FunctionDef)
    (i : Instruction) : Config ν → Prop where
  | succeeds (pc : Nat) (w' : World ν) (kept taken pushed : List Value)
    (hpc : pc ∈ i.successors run.frame.pc f.code.size)
    (hstack : i.Exchanges run.frame w.machine.stack w'.machine.stack kept taken pushed) :
    Complies w run calls f i ⟨w', .code (run.goto pc), calls⟩
  | fails (kind : TrapKind) (w' : World ν) (hkind : kind.isOperandFault = false) :
    Complies w run calls f i (Config.trap w' run calls kind)

/-- Where the globals after an instruction come from. One instruction binds its top operand; after
a call of a host function they are what the function has left, which was started with those there
were. No other instruction changes them. -/
def Rebinds (w : World ν) (run : CodeRun ν) (calls : List (HostCall ν)) (i : Instruction)
    (e : Config ν) : Prop :=
  match i.opcode with
  | .setGlobal =>
    ∃ name value, run.chunk.stringConstant? i.arg1 = some name ∧
      w.machine.stack.values.back? = some value ∧
      e.world.machine.globals = w.machine.globals.set name value
  | .callHost =>
    match w.machine.hostTarget run.chunk run.frame i with
    | .error _ => e.world.machine.globals = w.machine.globals
    | .ok (name, function) =>
      let opened := Config.openCall w calls name function i.arg2.toNat
        (.code run (w.machine.stack.size - i.arg2.toNat))
      opened.world.machine.globals = w.machine.globals ∧
        ∃ status w', opened.Reaches ⟨w', .host (.done status), opened.calls⟩ ∧
          Config.step ⟨w', .host (.done status), opened.calls⟩ = .more e ∧
          e.world.machine.globals = w'.machine.globals
  | _ => e.world.machine.globals = w.machine.globals

end Config

/-! ## Inside a frame -/

namespace Separate

/-- The instruction has taken the operands `taken` of a frame and put `pushed` in their place. -/
structure Frame.Traded (i : Instruction) (f after : Frame) (taken rest pushed : List Value) :
    Prop where
  before_eq : f.operands = taken ++ rest
  after_eq : after.operands = pushed ++ rest
  locals_eq : after.locals = i.keep 0 taken f.locals
  pops : taken.length = i.effect.pops
  pushes : pushed.length = i.effect.pushes
  looks : i.opcode = .dup ∨ i.opcode = .isType → taken <:+ pushed

/-- An instruction that goes on in its frame trades operands there. -/
def Trades (i : Instruction) (f : Frame) : Except TrapKind (Flow × Frame × Globals) → Prop
  | .error _ => True
  | .ok (flow, after, _) =>
    match flow with
    | .next | .jump _ => ∃ taken rest pushed, f.Traded i after taken rest pushed
    | .call _ | .host | .ret => True

section Instruction

variable {i : Instruction} {f : Frame} {limit under : Nat} {globals : Globals}

theorem Trades.bind {α : Type} {x : Except TrapKind α}
    {k : α → Except TrapKind (Flow × Frame × Globals)}
    (h : ∀ a, Trades i f (k a)) : Trades i f (x >>= k) := by
  cases x with
  | ok a => exact h a
  | error kind => trivial

theorem trades_pop {operands : List Value}
    {k : Value × List Value → Except TrapKind (Flow × Frame × Globals)}
    (h : ∀ value rest, operands = value :: rest → Trades i f (k (value, rest))) :
    Trades i f (pop operands >>= k) := by
  cases operands with
  | nil => trivial
  | cons value rest => exact h value rest rfl

/-- A value is pushed where the operands `taken` were, which are gone or have stayed. -/
theorem trades_push (taken stayed rest : List Value) (value : Value)
    (hbefore : f.operands = taken ++ rest) (hstayed : stayed = [] ∨ stayed = taken)
    (heffect : i.effect = ⟨taken.length, stayed.length + 1⟩) :
    Trades i f (do
      let pushed ← f.push limit under (stayed ++ rest) value
      return (.next, pushed, globals)) := by
  have hop : i.opcode ≠ .storeLocal := fun h ↦ by simp [Instruction.effect, h] at heffect
  rw [Frame.push]
  split
  · trivial
  refine ⟨taken, rest, value :: stayed, {
    before_eq := hbefore
    after_eq := rfl
    locals_eq := (Instruction.keep_of_ne hop _ _ _).symm
    pops := by rw [heffect]
    pushes := by rw [heffect, List.length_cons]
    looks := fun h ↦ ?_ }⟩
  rcases hstayed with rfl | rfl
  · rcases h with h | h <;> simp [Instruction.effect, h] at heffect
  · exact List.suffix_cons value stayed

/-- The operands `taken` are gone and nothing has taken their place. -/
theorem traded_drop {taken rest : List Value} (hbefore : f.operands = taken ++ rest)
    (hop : i.opcode ≠ .storeLocal) (heffect : i.effect = ⟨taken.length, 0⟩) :
    f.Traded i { f with operands := rest } taken rest [] where
  before_eq := hbefore
  after_eq := rfl
  locals_eq := (Instruction.keep_of_ne hop _ _ _).symm
  pops := by rw [heffect]
  pushes := by rw [heffect, List.length_nil]
  looks h := by
    rcases h with h | h <;> simp [Instruction.effect, h] at heffect

theorem exec_trades (chunk : Chunk) : Trades i f (f.exec chunk limit under globals i) := by
  unfold Frame.exec
  cases hop : i.opcode with
  | nop | jump =>
    exact ⟨[], f.operands, [], traded_drop rfl (by simp [hop]) (by simp [Instruction.effect, hop])⟩
  | const =>
    cases chunk.constants[i.arg1.toNat]? with
    | some value =>
      exact trades_push [] [] f.operands value rfl (.inl rfl) (by simp [Instruction.effect, hop])
    | none => trivial
  | pop =>
    refine trades_pop fun value rest hbefore ↦ ⟨[value], rest, [], ?_⟩
    exact traded_drop hbefore (by simp [hop]) (by simp [Instruction.effect, hop])
  | dup | isType =>
    refine trades_pop fun top rest hbefore ↦ ?_
    rw [hbefore]
    exact trades_push [top] [top] rest _ hbefore (.inr rfl) (by simp [Instruction.effect, hop])
  | loadLocal =>
    refine .bind fun value ↦ ?_
    exact trades_push [] [] f.operands value rfl (.inl rfl) (by simp [Instruction.effect, hop])
  | storeLocal =>
    refine .bind fun old ↦ trades_pop fun value rest hbefore ↦ ⟨[value], rest, [], ?_⟩
    exact {
      before_eq := hbefore
      after_eq := rfl
      locals_eq := by rw [Instruction.keep_store hop, Nat.zero_add]
      pops := by simp [Instruction.effect, hop]
      pushes := by simp [Instruction.effect, hop]
      looks := by simp [hop] }
  | getGlobal =>
    refine .bind fun bytes ↦ ?_
    cases globals.get? bytes with
    | some value =>
      exact trades_push [] [] f.operands value rfl (.inl rfl) (by simp [Instruction.effect, hop])
    | none => trivial
  | setGlobal =>
    refine .bind fun bytes ↦ trades_pop fun value rest hbefore ↦ ⟨[value], rest, [], ?_⟩
    exact traded_drop hbefore (by simp [hop]) (by simp [Instruction.effect, hop])
  | unary op =>
    refine trades_pop fun a rest hbefore ↦ .bind fun value ↦ ?_
    exact trades_push [a] [] rest value hbefore (.inl rfl) (by simp [Instruction.effect, hop])
  | binary op =>
    refine trades_pop fun b operands hb ↦ trades_pop fun a rest ha ↦ .bind fun value ↦ ?_
    have hbefore : f.operands = [b, a] ++ rest := by
      rw [hb, ha]
      rfl
    exact trades_push [b, a] [] rest value hbefore (.inl rfl) (by simp [Instruction.effect, hop])
  | jumpIfFalse =>
    refine trades_pop fun value rest hbefore ↦ ?_
    have hdrop : f.Traded i { f with operands := rest } [value] rest [] :=
      traded_drop hbefore (by simp [hop]) (by simp [Instruction.effect, hop])
    cases value with
    | bool condition => cases condition <;> exact ⟨_, _, _, hdrop⟩
    | i64 | f64 | null | str => trivial
  | call | callHost | ret => trivial

/-- On the stack the top operand comes last. -/
theorem Frame.Traded.exchanges {after : Frame} {taken rest pushed : List Value}
    (h : f.Traded i after taken rest pushed)
    (hlocal : i.opcode = .storeLocal → i.arg1.toNat < f.locals.length) (below : List Value)
    (base : Nat) (globals globals' : Globals) :
    i.Exchanges (f.placed below.length) (f.store below base globals).stack
      (after.store below base globals').stack (below ++ f.locals ++ rest.reverse) taken.reverse
      pushed.reverse where
  before_eq := by simp [Frame.store, Frame.values, h.before_eq]
  after_eq := by
    have hkeep : below ++ after.locals ++ rest.reverse
        = i.keep below.length taken.reverse (below ++ f.locals ++ rest.reverse) := by
      rw [h.locals_eq]
      by_cases hop : i.opcode = .storeLocal
      · obtain ⟨value, rfl⟩ : ∃ value, taken = [value] := by
          have hpops := h.pops
          rw [Instruction.effect, hop] at hpops
          exact List.length_eq_one_iff.mp hpops
        rw [List.reverse_singleton, Instruction.keep_store hop, Instruction.keep_store hop,
          Nat.zero_add]
        have hlt := hlocal hop
        simp [hlt]
      · rw [Instruction.keep_of_ne hop, Instruction.keep_of_ne hop]
    rw [Frame.placed, ← hkeep]
    simp [Frame.store, Frame.values, h.after_eq]
  base_eq := rfl
  pops := by rw [List.length_reverse, h.pops]
  pushes := by rw [List.length_reverse, h.pushes]
  local_lt hop := by
    have hlt := hlocal hop
    simp only [Frame.placed, List.length_append]
    omega
  looks hop := List.reverse_prefix.mpr (h.looks hop)

end Instruction

end Separate

open Separate

/-! ## A single step -/

namespace CodeRun.Poised

variable {run : CodeRun ν} {w : World ν} {f : FunctionDef} {i : Instruction}
  (h : run.Poised w f i)

include h

theorem instruction?_eq : run.chunk.instruction? run.frame.function run.frame.pc = some i := by
  rw [Chunk.instruction?, h.found]
  exact h.instruction

theorem resolves : i.Resolves run.chunk f :=
  Verify.resolves_of_checkFunction h.checks h.instruction

theorem following_mem (hop : i.opcode.isTerminator = false) :
    run.frame.pc + 1 ∈ i.successors run.frame.pc f.code.size :=
  i.following_mem_successors hop
    (Verify.continues_of_checkEnd (Verify.checkEnd_of_checkFunction h.checks) h.instruction hop)

/-- The stack is what lies below the frame, then the locals, then the operands. -/
theorem exists_placed :
    ∃ (below : List Value) (own : Separate.Frame),
      own.placed below.length = run.frame ∧
      own.store below w.machine.stack.base w.machine.globals = w.machine.toStore ∧
      own.locals.length = f.locals.toNat ∧ i.effect.pops ≤ own.operands.length := by
  obtain ⟨-, -, -, hfloor, -, hoperands⟩ := h
  let values := w.machine.stack.values.toList
  have hsize : run.frame.base + f.locals.toNat + i.effect.pops ≤ values.length := by
    rw [← hfloor]
    exact hoperands
  let own : Separate.Frame := ⟨run.frame.function, run.frame.pc,
    (values.drop run.frame.base).take f.locals.toNat, (values.drop run.frame.floor).reverse⟩
  have hbelow : (values.take run.frame.base).length = run.frame.base := by
    rw [List.length_take]
    omega
  have hlocals : own.locals.length = f.locals.toNat := by
    rw [List.length_take, List.length_drop]
    omega
  have hvalues : values.take run.frame.base ++ own.values = values := by
    have hdrop : values.drop run.frame.floor
        = (values.drop run.frame.base).drop f.locals.toNat := by
      rw [List.drop_drop, hfloor]
    rw [Separate.Frame.values, List.reverse_reverse, hdrop, List.take_append_drop,
      List.take_append_drop]
  refine ⟨values.take run.frame.base, own, ?_, ?_, hlocals, ?_⟩
  · rw [Separate.Frame.placed, hbelow, hlocals, ← hfloor]
  · rw [Separate.Frame.store, hvalues]
  · rw [List.length_reverse, List.length_drop]
    omega

/-- In its own frame, with the operands it takes, the instruction does what it does on the stack. -/
theorem exists_agrees :
    ∃ (below : List Value) (own : Separate.Frame),
      own.placed below.length = run.frame ∧
      own.store below w.machine.stack.base w.machine.globals = w.machine.toStore ∧
      own.locals.length = f.locals.toNat ∧ i.effect.pops ≤ own.operands.length ∧
      Agrees below w.machine.stack.base w.machine.globals
        (i.exec run.chunk w.machine.limits.stackDepth run.frame w.machine.toStore)
        (own.exec run.chunk w.machine.limits.stackDepth (below.length + own.locals.length)
          w.machine.globals i) := by
  obtain ⟨below, own, hplaced, hstore, hlocals, hpops⟩ := h.exists_placed
  refine ⟨below, own, hplaced, hstore, hlocals, hpops, ?_⟩
  rw [← hplaced, ← hstore]
  exact exec_placed run.chunk i own

theorem codeStep_complies (hcall : i.opcode ≠ .call) (hret : i.opcode ≠ .ret)
    (hhost : i.opcode ≠ .callHost) (calls : List (HostCall ν)) :
    Config.Complies w run calls f i (Config.codeStep w run calls) ∧
      (i.opcode ≠ .setGlobal →
        (Config.codeStep w run calls).world.machine.globals = w.machine.globals) := by
  obtain ⟨below, own, hplaced, hstore, hlocals, hpops, hagrees⟩ := h.exists_agrees
  have hbehaves := @exec_behaves run.chunk f i own w.machine.limits.stackDepth
    (below.length + own.locals.length) w.machine.globals h.resolves hlocals hpops
  have htrades := @exec_trades i own w.machine.limits.stackDepth
    (below.length + own.locals.length) w.machine.globals run.chunk
  have hkeeps := @keepsGlobals_exec w.machine.globals i run.chunk w.machine.limits.stackDepth
    (below.length + own.locals.length) own
  have hlocal : i.opcode = .storeLocal → i.arg1.toNat < own.locals.length := by
    intro hop
    have hresolves := h.resolves
    rw [Instruction.Resolves, hop, ← hlocals] at hresolves
    exact hresolves
  -- What is traded in the frame is exchanged on the stack, whatever the flow.
  have hexchanges {after : Separate.Frame} {globals : Globals}
      (htraded : ∃ taken rest pushed, own.Traded i after taken rest pushed) :
      ∃ kept taken pushed, i.Exchanges run.frame w.machine.stack
        (after.store below w.machine.stack.base globals).stack kept taken pushed := by
    obtain ⟨taken, rest, pushed, htraded⟩ := htraded
    have hstack := htraded.exchanges hlocal below w.machine.stack.base w.machine.globals globals
    rw [hplaced, hstore] at hstack
    exact ⟨_, _, _, hstack⟩
  rw [Config.codeStep, h.instruction?_eq]
  dsimp only
  generalize i.exec run.chunk w.machine.limits.stackDepth run.frame w.machine.toStore = onStack
    at hagrees
  generalize own.exec run.chunk w.machine.limits.stackDepth (below.length + own.locals.length)
    w.machine.globals i = inFrame at hagrees hbehaves htrades hkeeps
  cases hagrees with
  | error kind rest => exact ⟨.fails kind _ hbehaves, fun _ ↦ rfl⟩
  | ok flow after globals =>
    cases flow with
    | next =>
      obtain ⟨kept, taken, pushed, hstack⟩ := hexchanges htrades
      exact ⟨.succeeds _ _ kept taken pushed (h.following_mem hbehaves.1) hstack, hkeeps⟩
    | jump target =>
      obtain ⟨hop, rfl, -⟩ := hbehaves
      obtain ⟨kept, taken, pushed, hstack⟩ := hexchanges htrades
      exact ⟨.succeeds _ _ kept taken pushed (i.target_mem_successors hop _ _) hstack, hkeeps⟩
    | call callee => exact absurd hbehaves.1 hcall
    | host => exact absurd hbehaves hhost
    | ret => exact absurd hbehaves hret

theorem setGlobal_codeStep (hop : i.opcode = .setGlobal) (calls : List (HostCall ν)) :
    ∃ name value, run.chunk.stringConstant? i.arg1 = some name ∧
      w.machine.stack.values.back? = some value ∧
      (Config.codeStep w run calls).world.machine.globals = w.machine.globals.set name value := by
  obtain ⟨below, own, -, hstore, -, hpops, hagrees⟩ := h.exists_agrees
  obtain ⟨name, hname⟩ : ∃ name, run.chunk.stringConstant? i.arg1 = some name := by
    have hresolves := h.resolves
    rwa [Instruction.Resolves, hop] at hresolves
  obtain ⟨value, rest, hoperands⟩ : ∃ value rest, own.operands = value :: rest := by
    rw [Instruction.effect, hop] at hpops
    exact List.exists_cons_of_length_pos hpops
  refine ⟨name, value, hname, ?_, ?_⟩
  · have hvalues := congrArg (fun store ↦ store.stack.values.back?) hstore
    simpa [Separate.Frame.store, Separate.Frame.values, hoperands] using hvalues.symm
  · rw [Separate.Frame.exec, hop, Separate.name, hname, hoperands] at hagrees
    rw [Config.codeStep, h.instruction?_eq]
    dsimp only
    generalize i.exec run.chunk w.machine.limits.stackDepth run.frame w.machine.toStore = onStack
      at hagrees
    cases hagrees
    rfl

end CodeRun.Poised

/-! ## Live calls -/

namespace Config

variable {w w' : World ν} {run : CodeRun ν} {calls calls' : List (HostCall ν)}

/-- While a call is open that the run has made, more is live than before it. -/
theorem live_lt_of_suffix {name : String} {outerBase window : Nat} {control : Control ν}
    (h : ⟨name, outerBase, .code run window⟩ :: calls <:+ calls') :
    live ⟨w, .code run, calls⟩ < live ⟨w', control, calls'⟩ := by
  obtain ⟨inner, rfl⟩ := h
  simp only [live, frames, Control.frames, Caller.frames, List.flatMap_append, List.flatMap_cons,
    List.length_append, List.length_cons]
  omega

theorem live_host_le (program : HostProgram ν) :
    live ⟨w', .host program, calls⟩ ≤ live ⟨w, .code run, calls⟩ := by
  simp only [live, frames, Control.frames, List.nil_append, List.length_append]
  omega

theorem live_closeCall_le (name : String) (outerBase window : Nat) (status : Status) :
    (Config.closeCall w' ⟨name, outerBase, .code run window⟩ calls status).live
      ≤ live ⟨w, .code run, calls⟩ := by
  have hafter := afterClose_closeCall w' ⟨name, outerBase, .code run window⟩ calls status
  generalize Config.closeCall w' ⟨name, outerBase, .code run window⟩ calls status = e at hafter
  cases hafter with
  | goes => exact Nat.le_refl _
  | ends => exact live_host_le _

theorem Complies.live_le {f : FunctionDef} {i : Instruction} {e : Config ν}
    (h : Complies w run calls f i e) : e.live ≤ live ⟨w, .code run, calls⟩ := by
  cases h with
  | succeeds => exact Nat.le_refl _
  | fails => exact live_host_le _

end Config

/-! ## Calls of host functions -/

namespace Separate

variable {b : Awaited}

/-- The calls that are open outside stay open. -/
theorem Waiting.calls_suffix (o : Outside ν) {a : Awaited} (waiting : Waiting ν b a) :
    o.calls <:+ waiting.calls o := by
  induction waiting with
  | outside => exact List.suffix_refl _
  | program name caller rest ih => exact ih.trans (List.suffix_cons _ _)
  | bytecode name run rest ih => exact ih.trans (List.suffix_cons _ _)
  | entry caller rest ih => exact ih

/-- Bytecode that was called by host code goes back to it. -/
theorem ofTurn_ne_ended (s s' : Shared ν) (waiting : Waiting ν .host .code) (turn : Turn ν)
    (result : Result .host) : Progress.ofTurn s waiting turn ≠ .ended s' result := by
  intro h
  cases waiting with
  | entry caller rest =>
    cases turn with
    | goes | calls => cases h
    | ends outcome => cases outcome <;> cases h

/-- A host function ends when its own body is done, and nothing else makes it end. -/
theorem eq_done_of_ended {g : Ground} {d : Config ν .host} {s : Shared ν} {status : Status}
    {window : List Value} (h : d.step g = .ended s (.host status window)) :
    d = ⟨s, .host window (.done status) .outside⟩ := by
  obtain ⟨s₀, control⟩ := d
  cases control with
  | code run waiting => exact absurd h (ofTurn_ne_ended _ _ _ _ _)
  | host window₀ program waiting =>
    cases program with
    | done status₀ =>
      cases waiting with
      | outside =>
        cases h
        rfl
      | program name caller rest =>
        change (if status₀.isOk then _ else _) = _ at h
        split at h <;> cases h
      | bytecode name run rest => exact absurd h (ofTurn_ne_ended _ _ _ _ _)
    | ask | act | register | note => cases h
    | call name arguments next =>
      -- Whatever comes of the call, the body goes on after it.
      change Config.call g s₀ window₀ waiting name arguments next = _ at h
      rw [Config.call] at h
      dsimp only at h
      split at h
      · cases h
      · split at h <;> cases h
      · rw [Config.enter] at h
        split at h <;> cases h

/-- What is outside of a host function that bytecode has called on the values above `below`. -/
def Outside.ofInstruction (below : List Value) (base depth : Nat) (name : String)
    (run : CodeRun ν) (calls : List (HostCall ν)) : Outside ν :=
  { Outside.ofCall below base depth name run.resume calls with
    calls := ⟨name, base, .code run below.length⟩ :: calls }

/-- The machine comes back from a host function by the step that is made when the body of the
function is done. -/
theorem exists_done_of_comesBack {s : Shared ν} {below passed : List Value} {base depth : Nat}
    {name : String} {body : HostProgram ν} {run : CodeRun ν} {calls : List (HostCall ν)}
    {w : World ν} {e : Bytecode.Config ν}
    (hback : Bytecode.Config.ComesBack ⟨w, .code run, calls⟩ e)
    (hstep : Bytecode.Config.step ⟨w, .code run, calls⟩
      = .more (Config.onto (.ofInstruction below base depth name run calls)
          ⟨s, .host passed body .outside⟩)) :
    ∃ (s' : Shared ν) (window : List Value) (status : Status),
      let opened := Config.onto (.ofInstruction below base depth name run calls)
        ⟨s, .host passed body .outside⟩
      let done := Config.onto (.ofInstruction below base depth name run calls)
        ⟨s', .host window (.done status) .outside⟩
      opened.Reaches done ∧ done.step = .more e := by
  let o : Outside ν := .ofInstruction below base depth name run calls
  let inner : Config ν .host := ⟨s, .host passed body .outside⟩
  -- While the body goes on, the call is open, so the machine has not come back.
  have hafter {n : Nat} {d : Config ν .host}
      (hd : (Progress.more inner).after o.toGround n = .more d) :
      (Bytecode.Progress.more ⟨w, .code run, calls⟩).after (n + 1) = .more (d.onto o) ∧
        Bytecode.Config.live ⟨w, .code run, calls⟩ < (d.onto o).live := by
    constructor
    · rw [Bytecode.Progress.after_more_succ, hstep]
      exact after_onto_of_more o hd
    · obtain ⟨s₁, control⟩ := d
      cases control with
      | host window program waiting =>
        exact Bytecode.Config.live_lt_of_suffix (waiting.calls_suffix o)
      | code run waiting => exact Bytecode.Config.live_lt_of_suffix (waiting.calls_suffix o)
  obtain ⟨s', result, hends⟩ := exists_ends_of_comesBack hafter hback
  obtain ⟨n, d, hn, hlast⟩ := Progress.exists_last_step hends
  match result with
  | .host status window =>
    obtain rfl := eq_done_of_ended hlast
    have hcomes := comesBack_of_last_step hafter hn rfl
      (Bytecode.Config.live_closeCall_le name base below.length status)
    exact ⟨s', window, status, ⟨n, after_onto_of_more o hn⟩, by rw [hback.unique hcomes]; rfl⟩

end Separate

theorem Config.globals_closeCall (w : World ν) (call : HostCall ν) (calls : List (HostCall ν))
    (status : Status) :
    (Config.closeCall w call calls status).world.machine.globals = w.machine.globals := by
  rw [closeCall]
  dsimp only
  split
  · split <;> rfl
  · split
    · rfl
    · split <;> rfl

namespace CodeRun.Poised

variable {run : CodeRun ν} {w : World ν} {f : FunctionDef} {i : Instruction}
  (h : run.Poised w f i) (hop : i.opcode = .callHost)

include h hop

theorem step_callHost (calls : List (HostCall ν)) :
    Config.step ⟨w, .code run, calls⟩ = .more (Config.hostInstruction w run calls i) := by
  rw [Config.step, Config.codeStep, h.instruction?_eq]
  dsimp only
  rw [Instruction.exec, hop]
  rfl

theorem hostTarget_error {kind : TrapKind}
    (htarget : w.machine.hostTarget run.chunk run.frame i = .error kind) :
    kind.isOperandFault = false := by
  have hresolves := h.resolves
  rw [Instruction.Resolves, hop] at hresolves
  obtain ⟨bytes, hname⟩ := hresolves
  have hoperands := h.operands
  rw [Instruction.effect, hop] at hoperands
  rw [Machine.hostTarget, hname] at htarget
  dsimp only at htarget
  split at htarget
  · cases htarget
    rfl
  split at htarget
  · cases htarget
    rfl
  rw [if_neg (Nat.not_lt.mpr hoperands)] at htarget
  split at htarget
  · cases htarget
    rfl
  · cases htarget

/-- The arguments stand on top of the stack, inside of the window. -/
theorem exists_arguments :
    ∃ (s : Shared ν) (below passed : List Value) (base depth : Nat),
      w = s.world ⟨(below ++ passed).toArray, base⟩ depth ∧ passed.length = i.arg2.toNat ∧
        base ≤ below.length := by
  have hoperands := h.operands
  rw [Instruction.effect, hop, Stack.size, ← Array.length_toList] at hoperands
  obtain ⟨below, passed, hvalues, hpassed⟩ :=
    Stack.exists_append_of_le_length (Nat.le_of_add_left_le hoperands)
  rw [hvalues, List.length_append] at hoperands
  have hbase := h.base_le
  have hfloor := h.floor_eq
  refine ⟨.ofWorld w, below, passed, w.machine.stack.base, w.machine.depth, ?_, hpassed, by omega⟩
  rw [← hvalues]
  rfl

end CodeRun.Poised

/-- Bytecode that gets back from a host function has one value in place of the arguments, or it
traps. -/
theorem Config.complies_closeCall {s s' : Shared ν} {below passed window : List Value}
    {base depth : Nat} {run : CodeRun ν} {f : FunctionDef} {i : Instruction}
    (h : run.Poised (s.world ⟨(below ++ passed).toArray, base⟩ depth) f i)
    (hop : i.opcode = .callHost) (hpassed : passed.length = i.arg2.toNat)
    (hbase : base ≤ below.length) (calls : List (HostCall ν)) (name : String) (status : Status) :
    Complies (s.world ⟨(below ++ passed).toArray, base⟩ depth) run calls f i
      (Config.closeCall (s'.world ⟨(below ++ window).toArray, below.length⟩ (depth + 1))
        ⟨name, base, .code run below.length⟩ calls status) := by
  have hle : base ≤ (below ++ window).length := by
    rw [List.length_append]
    omega
  rw [Config.closeCall, closeCall_world s' hle]
  dsimp only
  split
  · exact .fails _ _ rfl
  split
  · rename_i hcount
    obtain ⟨value, rfl⟩ : ∃ value, window = [value] := by
      rw [Shared.stack_world, Stack.size_mk, List.length_append, Nat.add_sub_cancel_left] at hcount
      exact List.length_eq_one_iff.mp hcount
    have hnext : i.opcode.isTerminator = false := by
      rw [hop]
      rfl
    refine .succeeds _ _ below passed [value] (h.following_mem hnext) {
      before_eq := rfl
      after_eq := ?_
      base_eq := rfl
      pops := by rw [hpassed, Instruction.effect, hop]
      pushes := by rw [Instruction.effect, hop, List.length_singleton]
      local_lt := fun hstore ↦ by simp [hop] at hstore
      looks := fun hlooks ↦ by simp [hop] at hlooks }
    rw [Instruction.keep_of_ne (by simp [hop])]
    rfl
  · exact .fails _ _ rfl

theorem CodeRun.Poised.callHost_complies {run : CodeRun ν} {w : World ν} {f : FunctionDef}
    {i : Instruction} (h : run.Poised w f i) (hop : i.opcode = .callHost)
    {calls : List (HostCall ν)} {e : Config ν} (hback : Config.ComesBack ⟨w, .code run, calls⟩ e) :
    Config.Complies w run calls f i e ∧ Config.Rebinds w run calls i e := by
  have hstep := h.step_callHost hop calls
  rw [Config.hostInstruction] at hstep
  cases htarget : w.machine.hostTarget run.chunk run.frame i with
  | error kind =>
    rw [htarget] at hstep
    have hfails : Config.Complies w run calls f i (Config.trap w run calls kind) :=
      .fails kind w (h.hostTarget_error hop htarget)
    obtain rfl := hback.unique (.of_step hstep hfails.live_le)
    refine ⟨hfails, ?_⟩
    rw [Config.Rebinds, hop]
    dsimp only
    rw [htarget]
    rfl
  | ok target =>
    obtain ⟨name, function⟩ := target
    obtain ⟨s, below, passed, base, depth, rfl, hpassed, hbase⟩ := h.exists_arguments hop
    have hopen := openCall_world s passed hbase depth calls name function (.code run below.length)
    have hsize : (s.world ⟨(below ++ passed).toArray, base⟩ depth).machine.stack.size
        - i.arg2.toNat = below.length := by
      rw [Shared.stack_world, Stack.size_mk, List.length_append, hpassed, Nat.add_sub_cancel]
    rw [htarget] at hstep
    dsimp only at hstep
    rw [hsize, ← hpassed, hopen] at hstep
    obtain ⟨s', window, status, hreach, hlast⟩ := exists_done_of_comesBack hback hstep
    obtain rfl := Progress.more.inj hlast
    refine ⟨Config.complies_closeCall h hop hpassed hbase calls name status, ?_⟩
    rw [Config.Rebinds, hop]
    dsimp only
    rw [htarget]
    dsimp only
    rw [hsize, ← hpassed, hopen]
    exact ⟨rfl, status, _, hreach, hlast, Config.globals_closeCall _ _ _ _⟩

/-! ## All instructions -/

/-- The interpreter keeps to the verifier's table. An instruction other than a call or a return that
has the operands it takes goes on where the table says, with the stack that the table says, or it
traps, but not for want of an operand; and it changes the globals only if it binds one or calls a
host function. -/
theorem step_matches_stack_effect {w : World ν} {run : CodeRun ν} {f : FunctionDef}
    {i : Instruction} (h : run.Poised w f i) (hcall : i.opcode ≠ .call) (hret : i.opcode ≠ .ret)
    (calls : List (HostCall ν)) :
    let c : Config ν := ⟨w, .code run, calls⟩
    (∀ e, c.ComesBack e → Config.Complies w run calls f i e ∧ Config.Rebinds w run calls i e) ∧
      (i.opcode ≠ .callHost → ∃ e, c.step = .more e ∧ c.ComesBack e) := by
  intro c
  by_cases hhost : i.opcode = .callHost
  · exact ⟨fun e hback ↦ h.callHost_complies hhost hback, fun hne ↦ absurd hhost hne⟩
  obtain ⟨hcomplies, hglobals⟩ := h.codeStep_complies hcall hret hhost calls
  have hrebinds : Config.Rebinds w run calls i (Config.codeStep w run calls) := by
    rw [Config.Rebinds]
    split
    · exact h.setGlobal_codeStep ‹_› calls
    · exact absurd ‹_› hhost
    · exact hglobals ‹_›
  have hback : c.ComesBack (Config.codeStep w run calls) := .of_step rfl hcomplies.live_le
  refine ⟨fun e he ↦ ?_, fun _ ↦ ⟨_, rfl, hback⟩⟩
  rw [he.unique hback]
  exact ⟨hcomplies, hrebinds⟩

/-! ## A function that calls a host function -/

namespace Answering

theorem poised : (run 0).Poised (world #[] 1 called) function { opcode := .callHost } where
  found := rfl
  checks := (Verify.checks_of_verified verified rfl).1
  instruction := rfl
  floor_eq := rfl
  base_le := Nat.le_refl 0
  operands := Nat.le_refl 0

theorem comesBack : asking.ComesBack answered := by
  refine ⟨2, after_asking, Nat.le_refl _, fun m hm d hd ↦ ?_⟩
  rw [Progress.after_more_succ, step_asking] at hd
  match m, hm with
  | 0, _ | 1, _ =>
    cases hd
    decide

end Answering

theorem step_matches_stack_effect_answering :
    (Answering.run 0).Poised (Answering.world #[] 1 Answering.called) Answering.function
        { opcode := .callHost } ∧
      Answering.asking.ComesBack Answering.answered ∧
      Config.Complies (Answering.world #[] 1 Answering.called) (Answering.run 0) []
        Answering.function { opcode := .callHost } Answering.answered ∧
      Config.Rebinds (Answering.world #[] 1 Answering.called) (Answering.run 0) []
        { opcode := .callHost } Answering.answered := by
  obtain ⟨hall, -⟩ := step_matches_stack_effect Answering.poised (by decide) (by decide) []
  exact ⟨Answering.poised, Answering.comesBack, hall _ Answering.comesBack⟩

end Bytecode
