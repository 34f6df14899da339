import Bytecode.Proofs.Separate.Lockstep

/-!
# What instructions compute

An operator takes its operands off the stack and pushes its result, wherever it is executed: in any
frame of any function, at any depth, above any other values, provided there is room for the result.
`Opcode.Pushes` and `Opcode.Traps` say this of the machine as a whole, so that laws of arithmetic
and of comparison can be stated about instructions and not about the functions that define them.

The values that an operator pushes are determined by its operands (`Opcode.Pushes.unique`). So a law
may also say that an operator does *not* push a value.
-/

namespace Bytecode

variable {ν : Type}

/-- The same world with other values on the stack. -/
def World.withValues (w : World ν) (values : List Value) : World ν :=
  w.updateStack fun stack ↦ { stack with values := values.toArray }

@[simp] theorem World.withValues_withValues (w : World ν) (values values' : List Value) :
    (w.withValues values).withValues values' = w.withValues values' := rfl

/-- A run is at an instruction of this opcode. The top values of the stack are `operands`, which
belong to the executing frame, and there is room for one value in their place. -/
structure CodeRun.Ready (run : CodeRun ν) (w : World ν) (op : Opcode)
    (kept operands : List Value) : Prop where
  instruction : ∃ i, run.chunk.instruction? run.frame.function run.frame.pc = some i ∧
    i.opcode = op
  values : w.machine.stack.values = (kept ++ operands).toArray
  floor_le : run.frame.floor ≤ kept.length
  room : kept.length < w.machine.limits.stackDepth

namespace Opcode

/-- Executed on `operands`, the instruction puts `value` in their place and execution goes on after
it. Nothing else changes. -/
def Pushes (op : Opcode) (operands : List Value) (value : Value) : Prop :=
  ∀ ⦃ν : Type⦄ (w : World ν) (run : CodeRun ν) (calls : List (HostCall ν)) (kept : List Value),
    run.Ready w op kept operands →
    Config.step ⟨w, .code run, calls⟩
      = .more ⟨w.withValues (kept ++ [value]), .code (run.goto (run.frame.pc + 1)), calls⟩

/-- Executed on `operands`, the instruction takes them off and traps. -/
def Traps (op : Opcode) (operands : List Value) (kind : TrapKind) : Prop :=
  ∀ ⦃ν : Type⦄ (w : World ν) (run : CodeRun ν) (calls : List (HostCall ν)) (kept : List Value),
    run.Ready w op kept operands →
    Config.step ⟨w, .code run, calls⟩ = .more (Config.trap (w.withValues kept) run calls kind)

end Opcode

/-! ## Operators -/

namespace Exec

variable {α β : Type} {frame : Frame} {kept : List Value} {base limit : Nat} {globals : Globals}

theorem run_bind_of_ok {x : Exec α} {store store' : Store} {a : α} (h : x store = .ok a store')
    (f : α → Exec β) : (x >>= f) store = f a store' := by
  change EStateM.bind x f store = _
  rw [EStateM.bind, h]

theorem run_pop (value : Value) (hfloor : frame.floor ≤ kept.length) :
    pop frame ⟨⟨(kept ++ [value]).toArray, base⟩, globals⟩
      = .ok value ⟨⟨kept.toArray, base⟩, globals⟩ := by
  rw [pop, Stack.popAbove_concat value hfloor]

theorem run_push (value : Value) (hroom : kept.length < limit) :
    push limit value ⟨⟨kept.toArray, base⟩, globals⟩
      = .ok () ⟨⟨(kept ++ [value]).toArray, base⟩, globals⟩ := by
  rw [push, Stack.size_mk, if_neg (Nat.not_le.mpr hroom), Stack.push_mk]

end Exec

section Operators

variable {i : Instruction} {frame : Frame} {kept : List Value} {limit : Nat}

theorem Instruction.exec_unary {op : UnaryOp} (hop : i.opcode = .unary op)
    (hfloor : frame.floor ≤ kept.length) (hroom : kept.length < limit) (chunk : Chunk) (base : Nat)
    (globals : Globals) (a : Value) :
    i.exec chunk limit frame ⟨⟨(kept ++ [a]).toArray, base⟩, globals⟩ =
      match op.apply a with
      | .ok value => .ok .next ⟨⟨(kept ++ [value]).toArray, base⟩, globals⟩
      | .error kind => .error kind ⟨⟨kept.toArray, base⟩, globals⟩ := by
  rw [exec, hop]
  dsimp only
  rw [Exec.run_bind_of_ok (Exec.run_pop a hfloor)]
  cases op.apply a with
  | ok value => exact Exec.run_bind_of_ok (Exec.run_push value hroom) _
  | error kind => rfl

theorem Instruction.exec_binary {op : BinaryOp} (hop : i.opcode = .binary op)
    (hfloor : frame.floor ≤ kept.length) (hroom : kept.length < limit) (chunk : Chunk) (base : Nat)
    (globals : Globals) (a b : Value) :
    i.exec chunk limit frame ⟨⟨(kept ++ [a, b]).toArray, base⟩, globals⟩ =
      match op.apply a b with
      | .ok value => .ok .next ⟨⟨(kept ++ [value]).toArray, base⟩, globals⟩
      | .error kind => .error kind ⟨⟨kept.toArray, base⟩, globals⟩ := by
  have hfloor' : frame.floor ≤ (kept ++ [a]).length := by
    rw [List.length_append]
    exact Nat.le_add_right_of_le hfloor
  rw [exec, hop, List.append_cons]
  dsimp only
  rw [Exec.run_bind_of_ok (Exec.run_pop b hfloor'), Exec.run_bind_of_ok (Exec.run_pop a hfloor)]
  cases op.apply a b with
  | ok value => exact Exec.run_bind_of_ok (Exec.run_push value hroom) _
  | error kind => rfl

theorem Instruction.exec_loadLocal {value : Value} (hop : i.opcode = .loadLocal)
    (hslot : frame.base + i.arg1.toNat < frame.floor)
    (hvalue : kept[frame.base + i.arg1.toNat]? = some value) (hroom : kept.length < limit)
    (chunk : Chunk) (base : Nat) (globals : Globals) :
    i.exec chunk limit frame ⟨⟨kept.toArray, base⟩, globals⟩
      = .ok .next ⟨⟨(kept ++ [value]).toArray, base⟩, globals⟩ := by
  have hlocal : Exec.localSlot frame i.arg1 ⟨⟨kept.toArray, base⟩, globals⟩
      = .ok (frame.base + i.arg1.toNat) ⟨⟨kept.toArray, base⟩, globals⟩ := by
    simp only [Exec.localSlot, if_pos hslot]
    rfl
  have hread : Exec.slot (frame.base + i.arg1.toNat) i.arg1 ⟨⟨kept.toArray, base⟩, globals⟩
      = .ok value ⟨⟨kept.toArray, base⟩, globals⟩ := by
    rw [Exec.slot, Stack.slot?, List.getElem?_toArray, hvalue]
  rw [exec, hop]
  dsimp only
  rw [Exec.run_bind_of_ok hlocal, Exec.run_bind_of_ok hread]
  exact Exec.run_bind_of_ok (Exec.run_push value hroom) _

end Operators

/-! ## Steps -/

section Steps

variable {w : World ν} {i : Instruction} {values : List Value}

/-- The values of the machine with others on the stack. -/
def World.storeWith (w : World ν) (values : List Value) : Store :=
  ⟨⟨values.toArray, w.machine.stack.base⟩, w.machine.globals⟩

theorem World.storeWith_self (h : w.machine.stack.values = values.toArray) :
    w.machine.toStore = w.storeWith values := by
  rw [storeWith, ← h]

variable (w) (run : CodeRun ν)

theorem Config.step_of_exec_next
    (hi : run.chunk.instruction? run.frame.function run.frame.pc = some i)
    (h : i.exec run.chunk w.machine.limits.stackDepth run.frame w.machine.toStore
      = .ok .next (w.storeWith values)) (calls : List (HostCall ν)) :
    Config.step ⟨w, .code run, calls⟩
      = .more ⟨w.withValues values, .code (run.goto (run.frame.pc + 1)), calls⟩ := by
  rw [step, codeStep, hi]
  dsimp only
  rw [h]
  rfl

theorem Config.step_of_exec_error {kind : TrapKind}
    (hi : run.chunk.instruction? run.frame.function run.frame.pc = some i)
    (h : i.exec run.chunk w.machine.limits.stackDepth run.frame w.machine.toStore
      = .error kind (w.storeWith values)) (calls : List (HostCall ν)) :
    Config.step ⟨w, .code run, calls⟩
      = .more (Config.trap (w.withValues values) run calls kind) := by
  rw [step, codeStep, hi]
  dsimp only
  rw [h]
  rfl

theorem Config.step_ret
    (hi : run.chunk.instruction? run.frame.function run.frame.pc = some i) (hop : i.opcode = .ret)
    (calls : List (HostCall ν)) :
    Config.step ⟨w, .code run, calls⟩ = .more (Config.returnInstruction w run calls) := by
  rw [step, codeStep, hi]
  dsimp only
  rw [Instruction.exec, hop]
  rfl

end Steps

namespace Opcode

theorem pushes_unary {op : UnaryOp} {a value : Value} (h : op.apply a = .ok value) :
    (unary op).Pushes [a] value := by
  intro ν w run calls kept hready
  obtain ⟨i, hi, hop⟩ := hready.instruction
  apply Config.step_of_exec_next w run hi
  rw [World.storeWith_self hready.values, World.storeWith,
    Instruction.exec_unary hop hready.floor_le hready.room, h]
  rfl

theorem pushes_binary {op : BinaryOp} {a b value : Value} (h : op.apply a b = .ok value) :
    (binary op).Pushes [a, b] value := by
  intro ν w run calls kept hready
  obtain ⟨i, hi, hop⟩ := hready.instruction
  apply Config.step_of_exec_next w run hi
  rw [World.storeWith_self hready.values, World.storeWith,
    Instruction.exec_binary hop hready.floor_le hready.room, h]
  rfl

theorem traps_binary {op : BinaryOp} {a b : Value} {kind : TrapKind}
    (h : op.apply a b = .error kind) : (binary op).Traps [a, b] kind := by
  intro ν w run calls kept hready
  obtain ⟨i, hi, hop⟩ := hready.instruction
  apply Config.step_of_exec_error w run hi
  rw [World.storeWith_self hready.values, World.storeWith,
    Instruction.exec_binary hop hready.floor_le hready.room, h]
  rfl

/-! ## What is pushed is determined -/

/-- A function of a single instruction. -/
def alone (op : Opcode) : Chunk :=
  ⟨#[], #[⟨"", 0, 0, #[{ opcode := op }]⟩]⟩

/-- A run of it with nothing but the operands on the stack. -/
def trial (op : Opcode) : CodeRun Empty :=
  ⟨op.alone, ⟨0, 0, 0, 0⟩, [], 0, 0, fun _ ↦ .done .ok⟩

theorem ready_trial (op : Opcode) (operands : List Value) :
    op.trial.Ready (World.withValues ⟨{}, {}, #[]⟩ operands) op [] operands where
  instruction := ⟨{ opcode := op }, rfl, rfl⟩
  values := rfl
  floor_le := Nat.le_refl 0
  room := show 0 < ({} : Limits).stackDepth by decide

variable {op : Opcode} {operands : List Value}

theorem Pushes.unique {value value' : Value} (h : op.Pushes operands value)
    (h' : op.Pushes operands value') : value = value' := by
  have hready := op.ready_trial operands
  have hstep := (h _ _ [] [] hready).symm.trans (h' _ _ [] [] hready)
  injection hstep with hconfig
  injection hconfig with hworld
  simpa [World.withValues, World.updateStack] using hworld

theorem Pushes.not_traps {value : Value} {kind : TrapKind} (h : op.Pushes operands value) :
    ¬op.Traps operands kind := by
  intro h'
  have hready := op.ready_trial operands
  have hstep := (h _ _ [] [] hready).symm.trans (h' _ _ [] [] hready)
  injection hstep with hconfig
  injection hconfig with _ hcontrol
  cases hcontrol

end Opcode

/-! ## Functions -/

instance : Trans (@Config.Reaches ν) (@Config.Reaches ν) (@Config.Reaches ν) where
  trans := Config.Reaches.trans

/-- Called with `arguments` on top of the window, a function puts `value` in their place, if there
is room for `room` values from the first argument upwards. Nothing else changes but the log. -/
def FunctionDef.Returns (f : FunctionDef) (arguments : List Value) (room : Nat) (value : Value) :
    Prop :=
  ∀ ⦃ν : Type⦄ (w : World ν) (name : String) (chunk : Chunk) (index : Nat) (kept : List Value),
    chunk.functions[index]? = some f →
    w.machine.dispatch name arguments.length = .ok (.code chunk index) →
    w.machine.stack.values = (kept ++ arguments).toArray →
    w.machine.stack.base ≤ kept.length →
    w.machine.depth < w.machine.limits.callDepth →
    kept.length + room ≤ w.machine.limits.stackDepth →
    w.CallReturns name arguments.length (.ok ())
      ((w.log (.codeCalled name arguments.length)).withValues (kept ++ [value]))

/-- A call of a function whose locals are all arguments. -/
structure Activation (ν : Type) where
  /-- The world before the function is entered. -/
  world : World ν
  chunk : Chunk
  index : Nat
  /-- The values below the arguments. -/
  kept : List Value
  arguments : List Value
  resume : Reply → HostProgram ν
  calls : List (HostCall ν)

namespace Activation

/-- The run at an instruction. -/
def run (a : Activation ν) (pc : Nat) : CodeRun ν :=
  ⟨a.chunk, ⟨a.index, pc, a.kept.length, a.kept.length + a.arguments.length⟩, [], a.kept.length,
    a.world.machine.depth, a.resume⟩

/-- The world while the function executes, with the values that the frame owns beside its
arguments. -/
def worldWith (a : Activation ν) (operands : List Value) : World ν :=
  World.withValues { a.world with
    machine := { a.world.machine with depth := a.world.machine.depth + 1 } }
    (a.kept ++ a.arguments ++ operands)

def config (a : Activation ν) (pc : Nat) (operands : List Value) : Config ν :=
  ⟨a.worldWith operands, .code (a.run pc), a.calls⟩

variable {a : Activation ν} {pc : Nat} {i : Instruction} {operands under : List Value}
  {value : Value}

theorem reaches_of_pushes (under : List Value) (hi : a.chunk.instruction? a.index pc = some i)
    (h : i.opcode.Pushes operands value)
    (hroom : (a.kept ++ a.arguments ++ under).length < a.world.machine.limits.stackDepth) :
    (a.config pc (under ++ operands)).Reaches (a.config (pc + 1) (under ++ [value])) := by
  have hready : (a.run pc).Ready (a.worldWith (under ++ operands)) i.opcode
      (a.kept ++ a.arguments ++ under) operands := by
    refine ⟨⟨i, hi, rfl⟩, ?_, ?_, hroom⟩
    · simp [worldWith, World.withValues, World.updateStack]
    · simp [run]
  refine .step ((h _ _ a.calls _ hready).trans ?_)
  simp [config, worldWith, CodeRun.goto, run]

theorem reaches_of_loadLocal (hi : a.chunk.instruction? a.index pc = some i)
    (hop : i.opcode = .loadLocal) (hvalue : a.arguments[i.arg1.toNat]? = some value)
    (hroom : (a.kept ++ a.arguments ++ under).length < a.world.machine.limits.stackDepth) :
    (a.config pc under).Reaches (a.config (pc + 1) (under ++ [value])) := by
  have hlt : i.arg1.toNat < a.arguments.length := (List.getElem?_eq_some_iff.mp hvalue).1
  have hslot : (a.kept ++ a.arguments ++ under)[a.kept.length + i.arg1.toNat]? = some value := by
    rw [List.append_assoc, List.getElem?_append_right (Nat.le_add_right _ _),
      Nat.add_sub_cancel_left, List.getElem?_append_left hlt, hvalue]
  have hexec : i.exec a.chunk a.world.machine.limits.stackDepth (a.run pc).frame
      (a.worldWith under).machine.toStore
        = .ok .next ((a.worldWith under).storeWith (a.kept ++ a.arguments ++ under ++ [value])) :=
    Instruction.exec_loadLocal hop (Nat.add_lt_add_left hlt _) hslot hroom a.chunk _ _
  refine .step ((Config.step_of_exec_next (a.worldWith under) (a.run pc) hi hexec a.calls).trans ?_)
  simp [config, worldWith, CodeRun.goto, run]

theorem reaches_of_ret (hi : a.chunk.instruction? a.index pc = some i) (hop : i.opcode = .ret)
    (hbase : a.world.machine.stack.base ≤ a.kept.length) :
    (a.config pc (under ++ [value])).Reaches
      ⟨a.world.withValues (a.kept ++ [value]), .host (a.resume (.ok ())), a.calls⟩ := by
  have hfloor : (a.run pc).frame.floor ≤ (a.kept ++ a.arguments ++ under).length := by
    simp [run]
  have hpop : (a.worldWith (under ++ [value])).machine.stack.popAbove (a.run pc).frame.floor
      = (some value, (a.worldWith under).machine.stack) := by
    have hvalues : a.kept ++ a.arguments ++ (under ++ [value])
        = a.kept ++ a.arguments ++ under ++ [value] := by
      simp
    rw [worldWith, hvalues]
    exact Stack.popAbove_concat value hfloor
  have hcut : (a.worldWith under).machine.stack.truncate (a.run pc).frame.base
      = ⟨a.kept.toArray, a.world.machine.stack.base⟩ := by
    rw [worldWith, List.append_assoc]
    exact Stack.truncate_append (a.arguments ++ under) hbase
  refine .step ((Config.step_ret _ (a.run pc) hi hop a.calls).trans (congrArg Progress.more ?_))
  rw [Config.returnInstruction]
  dsimp only
  rw [hpop]
  dsimp only
  rw [hcut, Stack.push_mk]
  rfl

/-- A function is entered if the limits leave room for it. -/
theorem callCode_eq_config {f : FunctionDef} (name : String)
    (hf : a.chunk.functions[a.index]? = some f)
    (harity : f.arity.toNat = a.arguments.length) (hlocals : f.locals.toNat = a.arguments.length)
    (hvalues : a.world.machine.stack.values = (a.kept ++ a.arguments).toArray)
    (hdepth : a.world.machine.depth < a.world.machine.limits.callDepth)
    (hroom : (a.kept ++ a.arguments).length ≤ a.world.machine.limits.stackDepth) :
    Config.callCode a.world a.calls name a.chunk a.index a.arguments.length a.resume
      = { a with world := a.world.log (.codeCalled name a.arguments.length) }.config 0 [] := by
  have hbase : a.world.machine.stack.size - a.chunk.functionArity a.index = a.kept.length := by
    simp [Chunk.functionArity, hf, harity, Stack.size, hvalues]
  have hfloor : a.kept.length + f.locals.toNat = (a.kept ++ a.arguments).length := by
    rw [hlocals, List.length_append]
  have hstack : a.world.machine.stack.resize (a.kept ++ a.arguments).length
      = ⟨(a.kept ++ a.arguments ++ []).toArray, a.world.machine.stack.base⟩ := by
    rw [Stack.resize, hvalues, Stack.fit_toArray, List.take_length, Nat.sub_self,
      List.replicate_zero]
  have henter : a.world.machine.enterFrame a.chunk a.index a.kept.length
      = (.ok (a.run 0).frame, (a.worldWith []).machine) := by
    rw [Machine.enterFrame, hf]
    dsimp only
    rw [if_neg (Nat.not_le.mpr hdepth), hfloor, if_neg (Nat.not_lt.mpr hroom), hstack,
      List.length_append]
    rfl
  rw [Config.callCode]
  dsimp only [World.log]
  rw [hbase, henter]
  rfl

end Activation

/-- A function returns what its code has computed where it comes to a return. -/
theorem FunctionDef.returns_of_reaches {f : FunctionDef} {arguments : List Value} {room : Nat}
    {value : Value} (hlocals : f.locals.toNat = arguments.length)
    (hroom : arguments.length ≤ room)
    (hcode : ∀ {ν : Type} (a : Activation ν), a.arguments = arguments →
      a.chunk.functions[a.index]? = some f →
      a.kept.length + room ≤ a.world.machine.limits.stackDepth →
      ∃ pc i under, a.chunk.instruction? a.index pc = some i ∧ i.opcode = .ret ∧
        (a.config 0 []).Reaches (a.config pc (under ++ [value]))) :
    f.Returns arguments room value := by
  intro ν w name chunk index kept hf hdispatch hvalues hbase hdepth hstack resume calls
  have harity : f.arity.toNat = arguments.length := by
    rw [← (Separate.dispatch_ok hdispatch).2.2.2, Chunk.functionArity, hf]
  have hargs : (kept ++ arguments).length ≤ w.machine.limits.stackDepth := by
    rw [List.length_append]
    omega
  let a : Activation ν := ⟨w, chunk, index, kept, arguments, resume, calls⟩
  let a' : Activation ν := { a with world := w.log (.codeCalled name arguments.length) }
  have hentered : Config.callCode w calls name chunk index arguments.length resume
      = a'.config 0 [] :=
    a.callCode_eq_config name hf harity hlocals hvalues hdepth hargs
  have hcalled : Config.Reaches ⟨w, .host (.call name arguments.length resume), calls⟩
      (a'.config 0 []) := by
    refine .step ?_
    simp only [Config.step, Config.hostStep, Config.call, hdispatch, hentered]
  obtain ⟨pc, i, under, hi, hop, hcomputed⟩ := hcode a' rfl hf hstack
  exact (hcalled.trans hcomputed).trans (Activation.reaches_of_ret hi hop hbase)

end Bytecode
