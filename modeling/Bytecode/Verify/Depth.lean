import Bytecode.Verify.Limits

/-!
# Operand depth

Every instruction that can be reached is given the number of operands it starts with. The pass
follows the flow of control from the first instruction: where two paths meet they must agree, no
instruction may take more operands than there are, and none may leave more than a frame holds. Jump
targets are taken to be inside the function, which the structural checks see to.

The pass is a loop over a stack of places still to visit. A place that already has its depth pushes
nothing, and every other place pushes at most two, so a function of `n` instructions is done after
at most `2 * n + 1` rounds.
-/

namespace Bytecode

/-! ## What an instruction does to the depth -/

/-- How many operands an instruction takes, and how many it leaves in their place. -/
structure StackEffect where
  pops : Nat
  pushes : Nat
  deriving DecidableEq, Repr

/-- The effect of an instruction. A call takes its arguments and leaves its result; a duplicate and
a type test leave the value they look at. -/
def Instruction.effect (i : Instruction) : StackEffect :=
  match i.opcode with
  | .nop | .jump => ⟨0, 0⟩
  | .const | .loadLocal | .getGlobal => ⟨0, 1⟩
  | .pop | .storeLocal | .setGlobal | .jumpIfFalse | .ret => ⟨1, 0⟩
  | .dup | .isType => ⟨1, 2⟩
  | .unary _ => ⟨1, 1⟩
  | .binary _ => ⟨2, 1⟩
  | .call | .callHost => ⟨i.arg2.toNat, 1⟩

/-- The places where execution may continue after the instruction at `pc` of `size`, the
instruction after it last. -/
def Instruction.successors (i : Instruction) (pc size : Nat) : List Nat :=
  let following := if pc + 1 < size then [pc + 1] else []
  match i.opcode with
  | .ret => []
  | .jump => [i.arg1.toNat]
  | .jumpIfFalse => i.arg1.toNat :: following
  | _ => following

namespace Verify

/-! ## One round of the pass -/

/-- The state of the pass over one function. -/
structure DepthPass where
  /-- The depth each instruction starts with, as far as known. -/
  depthAt : Array (Option Nat)
  /-- Places still to visit with the depth they are reached with, the next one first. -/
  pending : List (Nat × Nat)
  /-- What was found wrong, in order. -/
  errors : Array VerifyError

/-- Nothing is known, and the first instruction is to be visited with no operands. -/
def DepthPass.start (code : Array Instruction) : DepthPass :=
  ⟨Array.replicate code.size none, [(0, 0)], #[]⟩

/-- What a visit of instruction `i` at `pc` with `depth` operands leads to: an error, or the places
to visit next. -/
def visit (function size pc depth : Nat) (i : Instruction) :
    Except VerifyError (List (Nat × Nat)) :=
  let effect := i.effect
  if depth < effect.pops then .error (.stackUnderflow function pc)
  else
    let after := depth - effect.pops + effect.pushes
    if maxOperandDepth < after then .error (.stackTooDeep function pc after)
    else .ok ((i.successors pc size).map fun next ↦ (next, after))

/-- Visit the next pending place. The last place that a visit adds is the next to be visited. -/
def DepthPass.step (function : Nat) (code : Array Instruction) : DepthPass → DepthPass
  | ⟨depthAt, [], errors⟩ => ⟨depthAt, [], errors⟩
  | ⟨depthAt, (pc, depth) :: pending, errors⟩ =>
    match depthAt[pc]?, code[pc]? with
    | some (some known), _ =>
      if known = depth then ⟨depthAt, pending, errors⟩
      else ⟨depthAt, pending, errors.push (.stackHeightMismatch function pc known depth)⟩
    | some none, some i =>
      match visit function code.size pc depth i with
      | .error e => ⟨depthAt.setIfInBounds pc (some depth), pending, errors.push e⟩
      | .ok next => ⟨depthAt.setIfInBounds pc (some depth), next.reverse ++ pending, errors⟩
    | _, _ => ⟨depthAt, pending, errors⟩

/-- At most the given number of rounds; the pass is over when nothing is pending. -/
def DepthPass.run (function : Nat) (code : Array Instruction) : Nat → DepthPass → DepthPass
  | 0, pass => pass
  | rounds + 1, pass =>
    match pass.pending with
    | [] => pass
    | _ :: _ => DepthPass.run function code rounds (pass.step function code)

/-! ## The pass -/

/-- The errors of one function. -/
def checkFunctionDepth (f : FunctionDef) (function : Nat) : List VerifyError :=
  if f.code.isEmpty then []
  else
    ((DepthPass.start f.code).run function f.code (2 * f.code.size + 1)).errors.toList

/-- The errors of all functions, in order. -/
def checkDepth (chunk : Chunk) : List VerifyError :=
  chunk.functions.toList.zipIdx.flatMap fun (f, function) ↦ checkFunctionDepth f function

end Verify

end Bytecode
