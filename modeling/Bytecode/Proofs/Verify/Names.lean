import Bytecode.Proofs.Verify.Structure

/-!
# Names in verified chunks

The verifier admits a function only if its name is not empty and no earlier function has it. So in a
verified chunk a function is found by its name.
-/

namespace Bytecode.Verify

variable {chunk : Chunk} {f : FunctionDef} {function : Nat}

/-- The first function of a name is entered, unless the name was there before. -/
theorem getElem?_foldl_insertIfNew (functions : List FunctionDef) (start : Nat)
    (first : Std.HashMap String Nat) (name : String) :
    ((functions.zipIdx start).foldl (fun first (f, function) ↦ first.insertIfNew f.name function)
        first)[name]?
      = first[name]?.or
          ((functions.findIdx? fun f ↦ f.name == name).map fun index ↦ start + index) := by
  induction functions generalizing start first with
  | nil => simp
  | cons f functions ih =>
    rw [List.zipIdx_cons, List.foldl_cons, ih, Std.HashMap.getElem?_insertIfNew,
      List.findIdx?_cons]
    by_cases hname : f.name = name
    · cases hfirst : first[name]? with
      | none => simp [hname, Std.HashMap.mem_iff_isSome_getElem?, hfirst]
      | some index => simp [hname, Std.HashMap.mem_iff_isSome_getElem?, hfirst]
    · simp [hname, Function.comp_def, Nat.add_assoc, Nat.add_comm 1]

theorem getElem?_firstDefinitions (chunk : Chunk) (name : String) :
    (firstDefinitions chunk)[name]? = chunk.functionIndex? name := by
  have hindex : chunk.functions.findIdx? (fun f ↦ f.name == name)
      = chunk.functions.toList.findIdx? fun f ↦ f.name == name := by
    rw [← List.findIdx?_toArray, Array.toArray_toList]
  rw [firstDefinitions, getElem?_foldl_insertIfNew, Chunk.functionIndex?, hindex]
  simp

/-- A function of a verified chunk is found by its name. -/
theorem functionIndex?_of_verified (h : chunk.Verified)
    (hf : chunk.functions[function]? = some f) :
    f.name ≠ "" ∧ chunk.functionIndex? f.name = some function := by
  obtain ⟨hchecks, -⟩ := checks_of_verified h hf
  rw [checkFunction] at hchecks
  obtain ⟨hheader, -⟩ := List.append_eq_nil_iff.mp hchecks
  obtain ⟨hboth, -⟩ := List.append_eq_nil_iff.mp hheader
  obtain ⟨hname, -⟩ := List.append_eq_nil_iff.mp hboth
  rw [checkFunctionName] at hname
  split at hname
  · cases hname
  · rename_i hnonempty
    have hfirst := of_check hname
    rw [getElem?_firstDefinitions] at hfirst
    exact ⟨hnonempty, hfirst⟩

/-- The only function of a chunk has its name to itself. What else is checked can be evaluated. -/
theorem verified_of_single {constants : Array Value} (hname : f.name ≠ "")
    (hlimits : checkLimits ⟨constants, #[f]⟩ = [])
    (hheader : checkLocals f 0 ++ checkEnd f 0 = [])
    (hcode : f.code.toList.zipIdx.flatMap
      (fun (i, pc) ↦ checkInstruction ⟨constants, #[f]⟩ f 0 pc i) = [])
    (hdepth : checkFunctionDepth f 0 = []) : Chunk.Verified ⟨constants, #[f]⟩ := by
  have hindex : Chunk.functionIndex? ⟨constants, #[f]⟩ f.name = some 0 := by
    simp [Chunk.functionIndex?]
  have hfirst : checkFunctionName (firstDefinitions ⟨constants, #[f]⟩) f 0 = [] := by
    rw [checkFunctionName, getElem?_firstDefinitions, hindex, if_neg hname, if_pos rfl]
  have hstructure : checkStructure ⟨constants, #[f]⟩ = [] := by
    change checkFunction _ _ f 0 ++ [] = []
    rw [checkFunction, hfirst, List.nil_append, hheader, hcode]
    rfl
  rw [Chunk.Verified, Chunk.verify, hstructure, hlimits]
  change checkFunctionDepth f 0 ++ [] = []
  rw [hdepth]
  rfl

end Bytecode.Verify
