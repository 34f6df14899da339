import Mathlib.Data.List.Nodup
import Bytecode.Proofs.Verify.Names

/-!
# The structural rules

What the structural pass is to enforce, rule by rule, and that it reports the broken rules and
nothing else.

The rules are written down without the pass. What the fields of an instruction mean is the table of
operands of the instruction set (`Opcode.operand?`); the rules about operands and the rule about
unused fields both refer to it, while the pass has one table for each of them. A rule is a
constructor that ends in the error which names it, so the place and the values that an error carries
are those for which its rule is broken.

That no error is reported twice, and that functions are taken in order, has one reason: the checks
of one function, and in it those of one instruction, carry its index.
-/

namespace Bytecode

/-! ## Operands of the instruction set -/

/-- A field of an instruction besides its opcode. -/
inductive Field where
  | tag
  | arg1
  | arg2
  | arg3
  deriving DecidableEq, Repr

/-- What a field stands for. -/
inductive Operand where
  /-- A constant of the pool. -/
  | constant
  /-- A constant of the pool that is a name. -/
  | name
  /-- A local slot. -/
  | slot
  /-- An instruction of the same function. -/
  | target
  /-- A function of the chunk. -/
  | callee
  /-- How many arguments a call passes. -/
  | arguments
  /-- A type of values. -/
  | type
  deriving DecidableEq, Repr

/-- The operands of an opcode. It uses the fields that hold one, and no others. -/
def Opcode.operand? : Opcode → Field → Option Operand
  | .const, .arg1 => some .constant
  | .loadLocal, .arg1 => some .slot
  | .storeLocal, .arg1 => some .slot
  | .getGlobal, .arg1 => some .name
  | .setGlobal, .arg1 => some .name
  | .jump, .arg1 => some .target
  | .jumpIfFalse, .arg1 => some .target
  | .call, .arg1 => some .callee
  | .call, .arg2 => some .arguments
  | .callHost, .arg1 => some .name
  | .callHost, .arg2 => some .arguments
  | .isType, .tag => some .type
  | _, _ => none

/-- The number in a field. -/
def Instruction.field (i : Instruction) : Field → Nat
  | .tag => i.tag.byte.toNat
  | .arg1 => i.arg1.toNat
  | .arg2 => i.arg2.toNat
  | .arg3 => i.arg3.toNat

/-! ## Rules -/

/-- The rules for instruction `i` at `pc` of the function `f`, each with the error that names it. -/
inductive Instruction.Breaks (chunk : Chunk) (f : FunctionDef) (function pc : Nat)
    (i : Instruction) : VerifyError → Prop where
  /-- A field that is not used is zero. -/
  | unusedField {field : Field} (hunused : i.opcode.operand? field = none)
    (hset : i.field field ≠ 0) : Breaks chunk f function pc i (.nonZeroUnusedField function pc)
  /-- A constant exists, also one that is to be a name. -/
  | constant (hop : i.opcode.operand? .arg1 = some .constant ∨ i.opcode.operand? .arg1 = some .name)
    (hrange : chunk.constants.size ≤ i.arg1.toNat) :
    Breaks chunk f function pc i (.constantOutOfRange function pc i.arg1)
  /-- A name is a string, and not the empty one. -/
  | name (hop : i.opcode.operand? .arg1 = some .name) {constant : Value}
    (hconstant : chunk.constants[i.arg1.toNat]? = some constant)
    (hname : ∀ bytes, bytes ≠ [] → constant ≠ .str bytes) :
    Breaks chunk f function pc i (.nameNotString function pc i.arg1)
  /-- A slot is one of the function's. -/
  | slot (hop : i.opcode.operand? .arg1 = some .slot) (hrange : f.locals.toNat ≤ i.arg1.toNat) :
    Breaks chunk f function pc i (.localOutOfRange function pc i.arg1 f.locals)
  /-- A jump leads to an instruction of the function. -/
  | target (hop : i.opcode.operand? .arg1 = some .target) (hrange : f.code.size ≤ i.arg1.toNat) :
    Breaks chunk f function pc i (.jumpOutOfRange function pc i.arg1)
  /-- A callee exists. -/
  | callee (hop : i.opcode.operand? .arg1 = some .callee)
    (hrange : chunk.functions.size ≤ i.arg1.toNat) :
    Breaks chunk f function pc i (.functionOutOfRange function pc i.arg1)
  /-- A callee gets as many arguments as it takes. -/
  | arity (hop : i.opcode.operand? .arg1 = some .callee) {callee : FunctionDef}
    (hcallee : chunk.functions[i.arg1.toNat]? = some callee) (harity : callee.arity ≠ i.arg2) :
    Breaks chunk f function pc i (.callArityMismatch function pc callee.arity i.arg2)
  /-- A type is that of some value. -/
  | type (hop : i.opcode.operand? .tag = some .type) (htype : ∀ v : Value, v.tag ≠ i.tag) :
    Breaks chunk f function pc i (.invalidTypeOperand function pc)

/-- The rules for the function `f`, each with the error that names it. -/
inductive FunctionDef.Breaks (chunk : Chunk) (function : Nat) (f : FunctionDef) :
    VerifyError → Prop where
  /-- A function has a name. -/
  | noName (hname : f.name = "") : Breaks chunk function f (.emptyFunctionName function)
  /-- The name is not that of an earlier function. -/
  | sameName (hname : f.name ≠ "") {earlier : Nat} {g : FunctionDef} (hearlier : earlier < function)
    (hg : chunk.functions[earlier]? = some g) (hsame : g.name = f.name) :
    Breaks chunk function f (.duplicateFunction function f.name)
  /-- There is a slot for every argument. -/
  | locals (hlocals : f.locals.toNat < f.arity.toNat) :
    Breaks chunk function f (.localsBelowArity function f.arity f.locals)
  /-- A function has code. -/
  | noCode (hcode : f.code = #[]) : Breaks chunk function f (.emptyFunction function)
  /-- The code ends with a return or a jump. -/
  | noEnd {last : Instruction} (hlast : f.code.back? = some last) (hret : last.opcode ≠ .ret)
    (hjump : last.opcode ≠ .jump) : Breaks chunk function f (.missingReturn function)
  /-- Every instruction keeps its rules. -/
  | instruction {pc : Nat} {i : Instruction} {e : VerifyError} (hi : f.code[pc]? = some i)
    (hbreaks : i.Breaks chunk f function pc e) : Breaks chunk function f e

/-- A rule is broken at the place that the error names, with the values that it carries. -/
def Chunk.Breaks (chunk : Chunk) (e : VerifyError) : Prop :=
  ∃ (function : Nat) (f : FunctionDef),
    chunk.functions[function]? = some f ∧ f.Breaks chunk function e

/-! ## Places -/

/-- The instruction that a broken rule is about, if it is about one. -/
def VerifyError.pc? : VerifyError → Option Nat
  | .nonZeroUnusedField _ pc
  | .constantOutOfRange _ pc _
  | .localOutOfRange _ pc _ _
  | .functionOutOfRange _ pc _
  | .jumpOutOfRange _ pc _
  | .nameNotString _ pc _
  | .callArityMismatch _ pc _ _
  | .invalidTypeOperand _ pc => some pc
  | _ => none

section Places

variable {chunk : Chunk} {f : FunctionDef} {i : Instruction} {function pc : Nat} {e : VerifyError}

theorem Instruction.Breaks.function?_eq (h : i.Breaks chunk f function pc e) :
    e.function? = some function := by
  cases h <;> rfl

theorem Instruction.Breaks.pc?_eq (h : i.Breaks chunk f function pc e) : e.pc? = some pc := by
  cases h <;> rfl

theorem FunctionDef.Breaks.function?_eq (h : f.Breaks chunk function e) :
    e.function? = some function := by
  cases h with
  | instruction hi hbreaks => exact hbreaks.function?_eq
  | noName | sameName | locals | noCode | noEnd => rfl

end Places

/-! ## Instructions -/

theorem Field.exists_iff {p : Field → Prop} :
    (∃ field, p field) ↔ p .tag ∨ p .arg1 ∨ p .arg2 ∨ p .arg3 := by
  constructor
  · rintro ⟨field, h⟩
    cases field <;> simp [h]
  · rintro (h | h | h | h) <;> exact ⟨_, h⟩

theorem TypeTag.byte_eq_zero_iff {tag : TypeTag} : tag.byte = 0 ↔ tag = .none := by
  cases tag <;> decide

theorem TypeTag.isValueType_iff {tag : TypeTag} :
    tag.isValueType = true ↔ ∃ v : Value, v.tag = tag := by
  constructor
  · intro h
    cases tag with
    | none => cases h
    | i64 => exact ⟨.i64 0, rfl⟩
    | f64 => exact ⟨.f64 0, rfl⟩
    | bool => exact ⟨.bool true, rfl⟩
    | null => exact ⟨.null, rfl⟩
    | str => exact ⟨.str [], rfl⟩
  · rintro ⟨v, rfl⟩
    exact v.isValueType_tag

namespace Instruction

/-- The fields that the pass takes to be used are those that hold an operand. -/
theorem setsUnusedField_iff (i : Instruction) :
    i.setsUnusedField = true ↔ ∃ field, i.opcode.operand? field = none ∧ i.field field ≠ 0 := by
  rw [Field.exists_iff]
  obtain ⟨opcode, tag, arg1, arg2, arg3⟩ := i
  have htag : tag.byte.toNat = 0 ↔ tag = .none := by
    rw [← TypeTag.byte_eq_zero_iff, ← UInt8.toNat_inj]
    rfl
  have harg (n : UInt16) : n.toNat = 0 ↔ n = 0 := by
    rw [← UInt16.toNat_inj]
    rfl
  cases opcode <;>
    simp [setsUnusedField, Opcode.usedFields, Opcode.operand?, field, htag, harg, or_assoc]

end Instruction

namespace Verify

variable {chunk : Chunk} {f : FunctionDef} {i : Instruction} {function pc : Nat} {e : VerifyError}

theorem mem_checkUnusedFields_iff :
    e ∈ checkUnusedFields i function pc
      ↔ e = .nonZeroUnusedField function pc ∧
        ∃ field, i.opcode.operand? field = none ∧ i.field field ≠ 0 := by
  rw [checkUnusedFields, ← i.setsUnusedField_iff]
  by_cases hsets : i.setsUnusedField = true
  · simp [hsets]
  · simp [hsets]

/-- What the pass looks at depends on the operand alone. -/
theorem checkOperands_eq (chunk : Chunk) (f : FunctionDef) (i : Instruction) (function pc : Nat) :
    checkOperands chunk f i function pc
      = match i.opcode.operand? .arg1, i.opcode.operand? .tag with
        | some .constant, _ =>
          if i.arg1.toNat < chunk.constants.size then []
          else [.constantOutOfRange function pc i.arg1]
        | some .name, _ => checkName chunk i.arg1 function pc
        | some .slot, _ =>
          if i.arg1 < f.locals then [] else [.localOutOfRange function pc i.arg1 f.locals]
        | some .target, _ =>
          if i.arg1.toNat < f.code.size then [] else [.jumpOutOfRange function pc i.arg1]
        | some .callee, _ =>
          match chunk.functions[i.arg1.toNat]? with
          | none => [.functionOutOfRange function pc i.arg1]
          | some callee =>
            if callee.arity = i.arg2 then []
            else [.callArityMismatch function pc callee.arity i.arg2]
        | _, some .type => if i.tag.isValueType then [] else [.invalidTypeOperand function pc]
        | _, _ => [] := by
  rw [checkOperands]
  cases i.opcode <;> rfl

theorem mem_check_iff {p : Prop} [Decidable p] {found : VerifyError} :
    e ∈ (if p then [] else [found]) ↔ e = found ∧ ¬p := by
  by_cases hp : p
  · simp [hp]
  · simp [hp]

theorem mem_checkName_iff {index : UInt16} :
    e ∈ checkName chunk index function pc
      ↔ e = .constantOutOfRange function pc index ∧ chunk.constants.size ≤ index.toNat ∨
        e = .nameNotString function pc index ∧ ∃ constant,
          chunk.constants[index.toNat]? = some constant ∧
            ∀ bytes, bytes ≠ [] → constant ≠ .str bytes := by
  rw [checkName]
  split
  · rename_i hnone
    simp [Array.getElem?_eq_none_iff.mp hnone]
  · rename_i byte bytes hconstant
    obtain ⟨hlt, -⟩ := Array.getElem?_eq_some_iff.mp hconstant
    simp [hconstant, Nat.not_le.mpr hlt]
  · rename_i constant hnot hconstant
    obtain ⟨hlt, -⟩ := Array.getElem?_eq_some_iff.mp hconstant
    have hname : ∀ bytes, bytes ≠ [] → constant ≠ .str bytes := by
      intro bytes hnonempty hstr
      obtain ⟨byte, bytes, rfl⟩ := List.exists_cons_of_ne_nil hnonempty
      exact hnot byte bytes hstr
    simpa [hconstant, Nat.not_le.mpr hlt] using fun _ ↦ hname

theorem breaks_of_mem_checkOperands (h : e ∈ checkOperands chunk f i function pc) :
    i.Breaks chunk f function pc e := by
  rw [checkOperands_eq] at h
  split at h
  · rename_i hop
    obtain ⟨rfl, hrange⟩ := mem_check_iff.mp h
    exact .constant (.inl hop) (Nat.le_of_not_lt hrange)
  · rename_i hop
    rcases mem_checkName_iff.mp h with ⟨rfl, hrange⟩ | ⟨rfl, constant, hconstant, hname⟩
    · exact .constant (.inr hop) hrange
    · exact .name hop hconstant hname
  · rename_i hop
    obtain ⟨rfl, hrange⟩ := mem_check_iff.mp h
    exact .slot hop (UInt16.not_lt.mp hrange)
  · rename_i hop
    obtain ⟨rfl, hrange⟩ := mem_check_iff.mp h
    exact .target hop (Nat.le_of_not_lt hrange)
  · rename_i hop
    split at h
    · rename_i hnone
      rw [List.mem_singleton.mp h]
      exact .callee hop (Array.getElem?_eq_none_iff.mp hnone)
    · rename_i callee hcallee
      obtain ⟨rfl, harity⟩ := mem_check_iff.mp h
      exact .arity hop hcallee harity
  · rename_i hop _ _ _ _ _
    obtain ⟨rfl, htype⟩ := mem_check_iff.mp h
    refine .type hop fun v hv ↦ htype ?_
    exact TypeTag.isValueType_iff.mpr ⟨v, hv⟩
  · cases h

/-- The type is the only operand of its opcode. -/
theorem operand?_arg1_of_type {op : Opcode} (hop : op.operand? .tag = some .type) :
    op.operand? .arg1 = none := by
  cases op with
  | isType => rfl
  | _ => cases hop

theorem mem_checkInstruction_of_breaks (h : i.Breaks chunk f function pc e) :
    e ∈ checkInstruction chunk f function pc i := by
  rw [checkInstruction, List.mem_append, checkOperands_eq]
  cases h with
  | unusedField hunused hset =>
    exact .inl (mem_checkUnusedFields_iff.mpr ⟨rfl, _, hunused, hset⟩)
  | constant hop hrange =>
    right
    rcases hop with hop | hop
    · rw [hop]
      exact mem_check_iff.mpr ⟨rfl, Nat.not_lt.mpr hrange⟩
    · rw [hop]
      exact mem_checkName_iff.mpr (.inl ⟨rfl, hrange⟩)
  | name hop hconstant hname =>
    right
    rw [hop]
    exact mem_checkName_iff.mpr (.inr ⟨rfl, _, hconstant, hname⟩)
  | slot hop hrange =>
    right
    rw [hop]
    exact mem_check_iff.mpr ⟨rfl, UInt16.not_lt.mpr hrange⟩
  | target hop hrange =>
    right
    rw [hop]
    exact mem_check_iff.mpr ⟨rfl, Nat.not_lt.mpr hrange⟩
  | callee hop hrange =>
    right
    rw [hop, Array.getElem?_eq_none_iff.mpr hrange]
    exact List.mem_singleton_self _
  | arity hop hcallee harity =>
    right
    rw [hop, hcallee]
    exact mem_check_iff.mpr ⟨rfl, harity⟩
  | type hop htype =>
    right
    rw [operand?_arg1_of_type hop, hop]
    refine mem_check_iff.mpr ⟨rfl, fun hvalue ↦ ?_⟩
    obtain ⟨v, hv⟩ := TypeTag.isValueType_iff.mp hvalue
    exact htype v hv

theorem mem_checkInstruction_iff :
    e ∈ checkInstruction chunk f function pc i ↔ i.Breaks chunk f function pc e := by
  constructor
  · intro h
    rcases List.mem_append.mp h with h | h
    · obtain ⟨rfl, field, hunused, hset⟩ := mem_checkUnusedFields_iff.mp h
      exact .unusedField hunused hset
    · exact breaks_of_mem_checkOperands h
  · exact mem_checkInstruction_of_breaks

/-! ## Functions -/

theorem mem_flatMap_zipIdx_iff {α : Type} {items : Array α}
    {check : α × Nat → List VerifyError} :
    e ∈ items.toList.zipIdx.flatMap check
      ↔ ∃ (index : Nat) (a : α), items[index]? = some a ∧ e ∈ check (a, index) := by
  simp only [List.mem_flatMap, Prod.exists, List.mk_mem_zipIdx_iff_getElem?, Array.getElem?_toList]
  exact exists_comm

/-- A function is not the first of its name just if an earlier one has the name. -/
theorem functionIndex?_ne_iff (hf : chunk.functions[function]? = some f) :
    chunk.functionIndex? f.name ≠ some function
      ↔ ∃ earlier < function, ∃ g, chunk.functions[earlier]? = some g ∧ g.name = f.name := by
  obtain ⟨hlt, hget⟩ := Array.getElem?_eq_some_iff.mp hf
  have hfirst : chunk.functionIndex? f.name = some function
      ↔ ∀ earlier (h : earlier < function), chunk.functions[earlier].name ≠ f.name := by
    rw [Chunk.functionIndex?, Array.findIdx?_eq_some_iff_getElem]
    simp [hlt, hget]
  rw [ne_eq, hfirst]
  push Not
  constructor
  · rintro ⟨earlier, hearlier, hname⟩
    exact ⟨earlier, hearlier, _, Array.getElem?_eq_getElem (Nat.lt_trans hearlier hlt), hname⟩
  · rintro ⟨earlier, hearlier, g, hg, hname⟩
    obtain ⟨hsize, rfl⟩ := Array.getElem?_eq_some_iff.mp hg
    exact ⟨earlier, hearlier, hname⟩

theorem mem_checkFunctionName_iff (hf : chunk.functions[function]? = some f) :
    e ∈ checkFunctionName (firstDefinitions chunk) f function
      ↔ e = .emptyFunctionName function ∧ f.name = "" ∨
        e = .duplicateFunction function f.name ∧ f.name ≠ "" ∧
          ∃ earlier < function, ∃ g, chunk.functions[earlier]? = some g ∧ g.name = f.name := by
  rw [checkFunctionName, getElem?_firstDefinitions]
  by_cases hname : f.name = ""
  · simp [hname]
  · rw [if_neg hname, mem_check_iff, ← ne_eq, functionIndex?_ne_iff hf]
    simp [hname]

theorem mem_checkLocals_iff :
    e ∈ checkLocals f function
      ↔ e = .localsBelowArity function f.arity f.locals ∧ f.locals.toNat < f.arity.toNat := by
  rw [checkLocals, ← UInt16.lt_iff_toNat_lt]
  by_cases hlocals : f.locals < f.arity
  · simp [hlocals]
  · simp [hlocals]

theorem mem_checkEnd_iff :
    e ∈ checkEnd f function
      ↔ e = .emptyFunction function ∧ f.code = #[] ∨
        e = .missingReturn function ∧ ∃ last, f.code.back? = some last ∧ last.opcode ≠ .ret ∧
          last.opcode ≠ .jump := by
  have hterminator (op : Opcode) : op.isTerminator = true ↔ op = .ret ∨ op = .jump := by
    cases op <;> simp [Opcode.isTerminator]
  rw [checkEnd]
  split
  · rename_i hnone
    have hcode : f.code = #[] := Array.back?_eq_none_iff.mp hnone
    simp [hcode]
  · rename_i last hlast
    have hcode : f.code ≠ #[] := by
      intro hcode
      rw [hcode] at hlast
      cases hlast
    rw [mem_check_iff, hterminator]
    simp [hcode, hlast]

theorem mem_checkFunction_iff (hf : chunk.functions[function]? = some f) :
    e ∈ checkFunction chunk (firstDefinitions chunk) f function ↔ f.Breaks chunk function e := by
  rw [checkFunction]
  simp only [List.mem_append, mem_checkFunctionName_iff hf, mem_checkLocals_iff, mem_checkEnd_iff,
    mem_flatMap_zipIdx_iff, mem_checkInstruction_iff]
  constructor
  · rintro ((((⟨rfl, hname⟩ | ⟨rfl, hname, earlier, hearlier, g, hg, hsame⟩) | ⟨rfl, hlocals⟩) |
      (⟨rfl, hcode⟩ | ⟨rfl, last, hlast, hret, hjump⟩)) | ⟨pc, i, hi, hbreaks⟩)
    · exact .noName hname
    · exact .sameName hname hearlier hg hsame
    · exact .locals hlocals
    · exact .noCode hcode
    · exact .noEnd hlast hret hjump
    · exact .instruction hi hbreaks
  · intro h
    cases h with
    | noName hname => exact .inl (.inl (.inl (.inl ⟨rfl, hname⟩)))
    | sameName hname hearlier hg hsame =>
      exact .inl (.inl (.inl (.inr ⟨rfl, hname, _, hearlier, _, hg, hsame⟩)))
    | locals hlocals => exact .inl (.inl (.inr ⟨rfl, hlocals⟩))
    | noCode hcode => exact .inl (.inr (.inl ⟨rfl, hcode⟩))
    | noEnd hlast hret hjump => exact .inl (.inr (.inr ⟨rfl, _, hlast, hret, hjump⟩))
    | instruction hi hbreaks => exact .inr ⟨_, _, hi, hbreaks⟩

theorem mem_checkStructure_iff : e ∈ checkStructure chunk ↔ chunk.Breaks e := by
  rw [checkStructure, mem_flatMap_zipIdx_iff]
  constructor
  · rintro ⟨function, f, hf, h⟩
    exact ⟨function, f, hf, (mem_checkFunction_iff hf).mp h⟩
  · rintro ⟨function, f, hf, h⟩
    exact ⟨function, f, hf, (mem_checkFunction_iff hf).mpr h⟩

/-! ## Order -/

section Indexed

variable {α : Type} {items : List α} {check : α × Nat → List VerifyError}
  (key : VerifyError → Option Nat)

theorem pairwise_zipIdx_lt (items : List α) (start : Nat) :
    (items.zipIdx start).Pairwise fun a b ↦ a.2 < b.2 := by
  rw [← List.pairwise_map, List.zipIdx_map_snd]
  exact List.pairwise_lt_range'

/-- Nothing is found twice by checks that carry the index of what they look at. -/
theorem nodup_flatMap_zipIdx (hkey : ∀ a ∈ items.zipIdx, ∀ e ∈ check a, key e = some a.2)
    (hnodup : ∀ a ∈ items.zipIdx, (check a).Nodup) : (items.zipIdx.flatMap check).Nodup := by
  rw [List.nodup_flatMap]
  refine ⟨hnodup, (pairwise_zipIdx_lt items 0).imp_of_mem fun {a b} ha hb hlt ↦ ?_⟩
  refine List.disjoint_left.mpr fun e hea heb ↦ ?_
  have hsame := (hkey a ha e hea).symm.trans (hkey b hb e heb)
  exact Nat.ne_of_lt hlt (Option.some.inj hsame)

/-- What is found by checks that carry the index of what they look at is found in order. -/
theorem pairwise_flatMap_zipIdx (hkey : ∀ a ∈ items.zipIdx, ∀ e ∈ check a, key e = some a.2) :
    (items.zipIdx.flatMap check).Pairwise
      fun e e' ↦ ∃ m n, key e = some m ∧ key e' = some n ∧ m ≤ n := by
  rw [List.pairwise_flatMap]
  constructor
  · intro a ha
    refine List.pairwise_of_forall_mem_list fun e he e' he' ↦ ?_
    exact ⟨a.2, a.2, hkey a ha e he, hkey a ha e' he', Nat.le_refl _⟩
  · refine (pairwise_zipIdx_lt items 0).imp_of_mem fun {a b} ha hb hlt e he e' he' ↦ ?_
    exact ⟨a.2, b.2, hkey a ha e he, hkey b hb e' he', Nat.le_of_lt hlt⟩

end Indexed

/-- A check of one thing finds at most one error. -/
theorem nodup_cons_check {p : Prop} [Decidable p] {first found : VerifyError}
    (h : first ≠ found) : (first :: if p then [] else [found]).Nodup := by
  by_cases hp : p
  · simp [hp]
  · simp [hp, h]

theorem nodup_cons_checkOperands (chunk : Chunk) (f : FunctionDef) (i : Instruction)
    (function pc : Nat) :
    (.nonZeroUnusedField function pc :: checkOperands chunk f i function pc).Nodup := by
  rw [checkOperands_eq]
  split
  · exact nodup_cons_check (by simp)
  · rw [checkName]
    split <;> simp
  · exact nodup_cons_check (by simp)
  · exact nodup_cons_check (by simp)
  · split
    · simp
    · exact nodup_cons_check (by simp)
  · exact nodup_cons_check (by simp)
  · exact List.nodup_singleton _

theorem nodup_checkInstruction (chunk : Chunk) (f : FunctionDef) (function pc : Nat)
    (i : Instruction) : (checkInstruction chunk f function pc i).Nodup := by
  have hboth := nodup_cons_checkOperands chunk f i function pc
  rw [checkInstruction, checkUnusedFields]
  by_cases hsets : i.setsUnusedField = true
  · rw [if_pos hsets]
    exact hboth
  · rw [if_neg hsets]
    exact hboth.of_cons

/-- The three checks of a header find errors of different kinds. -/
theorem nodup_checkHeader (first : Std.HashMap String Nat) (f : FunctionDef) (function : Nat) :
    (checkFunctionName first f function ++ checkLocals f function
      ++ checkEnd f function).Nodup := by
  rw [checkFunctionName, checkLocals, checkEnd]
  repeat' split
  all_goals simp

theorem pc?_of_mem_checkHeader (hf : chunk.functions[function]? = some f)
    (h : e ∈ checkFunctionName (firstDefinitions chunk) f function ++ checkLocals f function
      ++ checkEnd f function) : e.pc? = none := by
  simp only [List.mem_append, mem_checkFunctionName_iff hf, mem_checkLocals_iff,
    mem_checkEnd_iff] at h
  obtain ((⟨rfl, -⟩ | ⟨rfl, -⟩) | ⟨rfl, -⟩) | (⟨rfl, -⟩ | ⟨rfl, -⟩) := h <;> rfl

theorem nodup_checkFunction (hf : chunk.functions[function]? = some f) :
    (checkFunction chunk (firstDefinitions chunk) f function).Nodup := by
  have hkey : ∀ a ∈ f.code.toList.zipIdx, ∀ e ∈ checkInstruction chunk f function a.2 a.1,
      e.pc? = some a.2 := by
    intro a _ e he
    exact (mem_checkInstruction_iff.mp he).pc?_eq
  rw [checkFunction, List.nodup_append']
  refine ⟨nodup_checkHeader .., ?_, ?_⟩
  · exact nodup_flatMap_zipIdx VerifyError.pc? hkey fun a _ ↦ nodup_checkInstruction ..
  · refine List.disjoint_left.mpr fun e hheader hcode ↦ ?_
    obtain ⟨a, ha, he⟩ := List.mem_flatMap.mp hcode
    have hsome := hkey a ha e he
    rw [pc?_of_mem_checkHeader hf hheader] at hsome
    cases hsome

/-- The structural pass reports an error if and only if the rule that it names is broken where and
with the values that it says. It reports none twice, and takes the functions in order. -/
theorem structural_pass_is_exact (chunk : Chunk) :
    (∀ e, e ∈ checkStructure chunk ↔ chunk.Breaks e) ∧ (checkStructure chunk).Nodup ∧
      (checkStructure chunk).Pairwise
        fun e e' ↦ ∃ m n, e.function? = some m ∧ e'.function? = some n ∧ m ≤ n := by
  have hget : ∀ a ∈ chunk.functions.toList.zipIdx, chunk.functions[a.2]? = some a.1 := by
    intro a ha
    rw [← Array.getElem?_toList]
    exact List.mk_mem_zipIdx_iff_getElem?.mp ha
  have hkey : ∀ a ∈ chunk.functions.toList.zipIdx,
      ∀ e ∈ checkFunction chunk (firstDefinitions chunk) a.1 a.2, e.function? = some a.2 := by
    intro a ha e he
    exact ((mem_checkFunction_iff (hget a ha)).mp he).function?_eq
  refine ⟨fun e ↦ mem_checkStructure_iff, ?_, ?_⟩
  · exact nodup_flatMap_zipIdx VerifyError.function? hkey fun a ha ↦ nodup_checkFunction (hget a ha)
  · exact pairwise_flatMap_zipIdx VerifyError.function? hkey

end Verify

end Bytecode
