import Bytecode.Proofs.Verify.Depth
import Bytecode.Verify.Basic

/-!
# Verified chunks

What the three passes together establish of every function of a verified chunk, in the form in which
an interpreter needs it: the operands of an instruction refer to something (`Instruction.Resolves`),
an instruction that does not end its function has one after it, and wherever the flow of control
leads there is an instruction, with as many operands as it takes.
-/

namespace Bytecode

/-- What the operands of an instruction of `f` refer to exists. -/
def Instruction.Resolves (chunk : Chunk) (f : FunctionDef) (i : Instruction) : Prop :=
  match i.opcode with
  | .const => i.arg1.toNat < chunk.constants.size
  | .getGlobal | .setGlobal | .callHost => ∃ name, chunk.stringConstant? i.arg1 = some name
  | .loadLocal | .storeLocal => i.arg1.toNat < f.locals.toNat
  | .jump | .jumpIfFalse => i.arg1.toNat < f.code.size
  | .call => ∃ callee, chunk.functions[i.arg1.toNat]? = some callee ∧ callee.arity = i.arg2
  | .nop | .pop | .dup | .unary _ | .binary _ | .ret | .isType => True

/-- What is known of a function of a verified chunk. -/
structure FunctionDef.Sound (chunk : Chunk) (f : FunctionDef) : Prop where
  resolves {pc : Nat} {i : Instruction} : f.code[pc]? = some i → i.Resolves chunk f
  continues {pc : Nat} {i : Instruction} :
    f.code[pc]? = some i → i.opcode.isTerminator = false → pc + 1 < f.code.size
  fits {pc depth : Nat} : Verify.Visits f.code pc depth → ∃ i, f.code[pc]? = some i ∧ i.Fits depth

namespace Verify

variable {chunk : Chunk} {f : FunctionDef} {i : Instruction} {function pc : Nat}

/-! ## Single checks -/

theorem of_check {p : Prop} [Decidable p] {e : VerifyError}
    (h : (if p then [] else [e]) = ([] : List VerifyError)) : p := by
  by_cases hp : p
  · exact hp
  · rw [if_neg hp] at h
    cases h

theorem exists_name_of_checkName {index : UInt16} (h : checkName chunk index function pc = []) :
    ∃ name, chunk.stringConstant? index = some name := by
  rw [checkName] at h
  split at h
  · cases h
  · rename_i hconstant
    exact ⟨_, by rw [Chunk.stringConstant?, hconstant]; rfl⟩
  · cases h

theorem resolves_of_checkOperands (h : checkOperands chunk f i function pc = []) :
    i.Resolves chunk f := by
  rw [checkOperands] at h
  rw [Instruction.Resolves]
  generalize i.opcode = op at h ⊢
  cases op with
  | const => exact of_check h
  | getGlobal | setGlobal | callHost => exact exists_name_of_checkName h
  | loadLocal | storeLocal => exact UInt16.lt_iff_toNat_lt.mp (of_check h)
  | jump | jumpIfFalse => exact of_check h
  | call =>
    dsimp only at h ⊢
    split at h
    · cases h
    · exact ⟨_, ‹_›, of_check h⟩
  | nop | pop | dup | unary | binary | ret | isType => trivial

theorem continues_of_checkEnd (h : checkEnd f function = []) (hi : f.code[pc]? = some i)
    (hterminator : i.opcode.isTerminator = false) : pc + 1 < f.code.size := by
  obtain ⟨hlt, hget⟩ := Array.getElem?_eq_some_iff.mp hi
  refine Nat.lt_of_le_of_ne hlt fun hlast ↦ ?_
  have hback : f.code.back? = some i := by
    rw [Array.back?_eq_getElem?, ← hlast, Nat.add_sub_cancel, hi]
  rw [checkEnd, hback] at h
  have hyes := of_check h
  rw [hterminator] at hyes
  cases hyes

theorem size_pos_of_checkEnd (h : checkEnd f function = []) : 0 < f.code.size := by
  refine Nat.pos_of_ne_zero fun hzero ↦ ?_
  rw [checkEnd, Array.size_eq_zero_iff.mp hzero] at h
  cases h

/-- A jump that resolves and falling through are the only ways to go on. -/
theorem inside_of_resolves (h : ∀ (pc : Nat) (i : Instruction), f.code[pc]? = some i →
    i.Resolves chunk f) : Inside f.code := by
  refine inside_of_jumps fun pc i hi hop ↦ ?_
  have hresolves := h pc i hi
  rw [Instruction.Resolves] at hresolves
  rcases hop with hop | hop
  · rw [hop] at hresolves
    exact hresolves
  · rw [hop] at hresolves
    exact hresolves

/-! ## All checks -/

/-- A check of all functions that finds nothing finds nothing in any of them. -/
theorem check_function_of_flatMap {check : FunctionDef × Nat → List VerifyError}
    (h : chunk.functions.toList.zipIdx.flatMap check = [])
    (hf : chunk.functions[function]? = some f) : check (f, function) = [] := by
  refine List.flatMap_eq_nil_iff.mp h (f, function) (List.mk_mem_zipIdx_iff_getElem?.mpr ?_)
  rw [Array.getElem?_toList, hf]

section Function

variable {first : Std.HashMap String Nat} (h : checkFunction chunk first f function = [])

include h

theorem checkEnd_of_checkFunction : checkEnd f function = [] := by
  rw [checkFunction] at h
  obtain ⟨hheader, -⟩ := List.append_eq_nil_iff.mp h
  exact (List.append_eq_nil_iff.mp hheader).2

theorem resolves_of_checkFunction (hi : f.code[pc]? = some i) : i.Resolves chunk f := by
  rw [checkFunction] at h
  obtain ⟨-, hcode⟩ := List.append_eq_nil_iff.mp h
  have hmem : (i, pc) ∈ f.code.toList.zipIdx := by
    rw [List.mk_mem_zipIdx_iff_getElem?, Array.getElem?_toList, hi]
  have hinstruction := List.flatMap_eq_nil_iff.mp hcode (i, pc) hmem
  exact resolves_of_checkOperands (List.append_eq_nil_iff.mp hinstruction).2

end Function

/-- A verified chunk has passed the structural checks, and those of the depths after them. -/
theorem checks_of_verified (h : chunk.Verified) (hf : chunk.functions[function]? = some f) :
    checkFunction chunk (firstDefinitions chunk) f function = [] ∧
      checkFunctionDepth f function = [] := by
  rw [Chunk.Verified, Chunk.verify] at h
  obtain ⟨hstatic, hdepth⟩ := List.append_eq_nil_iff.mp h
  obtain ⟨-, hstructure⟩ := List.append_eq_nil_iff.mp hstatic
  rw [hstructure, List.isEmpty_nil, if_pos rfl] at hdepth
  exact ⟨check_function_of_flatMap hstructure hf, check_function_of_flatMap hdepth hf⟩

theorem sound_of_verified (h : chunk.Verified) (hf : chunk.functions[function]? = some f) :
    f.Sound chunk := by
  obtain ⟨hchecks, hdepth⟩ := checks_of_verified h hf
  have hend := checkEnd_of_checkFunction hchecks
  have hinside := inside_of_resolves fun _ _ hi ↦ resolves_of_checkFunction hchecks hi
  exact {
    resolves := resolves_of_checkFunction hchecks
    continues := continues_of_checkEnd hend
    fits := fits_of_visits hinside (size_pos_of_checkEnd hend) hdepth }

end Verify

end Bytecode
