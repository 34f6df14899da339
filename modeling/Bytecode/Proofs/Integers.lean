import Bytecode.Proofs.Evaluation
import Bytecode.Proofs.LoadGate

/-!
# Integer arithmetic

Integers are computed exactly and then reduced to 64 bits. `Int64.ofInt` is this reduction, so each
instruction is compared with the operation on unbounded integers: the quotient with the one that is
truncated toward zero, the remainder with the one that goes with it. Division is refused for one
divisor only.

There is one quotient that does not fit, that of the least integer by `-1`. The division law
survives it, because it is a law of the reduced values: what the exact quotient and remainder make
up is reduced back to the dividend (`div_mul_add_mod`). So it can be checked by bytecode itself.
-/

namespace Bytecode

/-! ## Operations and their reductions -/

namespace Integer

theorem add_eq_ofInt (x y : Int64) : x + y = .ofInt (x.toInt + y.toInt) := by
  rw [Int64.ofInt_add, Int64.ofInt_toInt, Int64.ofInt_toInt]

theorem sub_eq_ofInt (x y : Int64) : x - y = .ofInt (x.toInt - y.toInt) := by
  rw [Int64.ofInt_sub, Int64.ofInt_toInt, Int64.ofInt_toInt]

theorem mul_eq_ofInt (x y : Int64) : x * y = .ofInt (x.toInt * y.toInt) := by
  rw [Int64.ofInt_mul, Int64.ofInt_toInt, Int64.ofInt_toInt]

theorem neg_eq_ofInt (x : Int64) : -x = .ofInt (-x.toInt) := by
  rw [Int64.ofInt_neg, Int64.ofInt_toInt]

theorem div_eq_ofInt (x y : Int64) : x / y = .ofInt (x.toInt.tdiv y.toInt) := by
  apply Int64.toInt_inj.mp
  rw [Int64.toInt_div, Int64.toInt_ofInt]

theorem mod_eq_ofInt (x y : Int64) : x % y = .ofInt (x.toInt.tmod y.toInt) := by
  rw [← Int64.toInt_mod, Int64.ofInt_toInt]

/-! ## Quotient and remainder -/

/-- The exact quotient and remainder make up the dividend, and so do the reduced ones. -/
theorem div_mul_add_mod (x y : Int64) : x / y * y + x % y = x := by
  calc x / y * y + x % y
      = .ofInt (x.toInt.tdiv y.toInt * y.toInt + x.toInt.tmod y.toInt) := by
        rw [Int64.ofInt_add, Int64.ofInt_mul, Int64.ofInt_toInt, ← div_eq_ofInt, ← mod_eq_ofInt]
    _ = .ofInt x.toInt := by rw [Int.tdiv_mul_add_tmod]
    _ = x := Int64.ofInt_toInt x

/-- The same as a congruence of integers. -/
theorem div_mul_add_mod_emod (x y : Int64) :
    ((x / y).toInt * y.toInt + (x % y).toInt) % Int64.size = x.toInt % Int64.size := by
  have hreduced : Int64.ofInt ((x / y).toInt * y.toInt + (x % y).toInt) = x := by
    rw [Int64.ofInt_add, Int64.ofInt_mul, Int64.ofInt_toInt, Int64.ofInt_toInt, Int64.ofInt_toInt,
      div_mul_add_mod]
  rw [← Int.bmod_emod, ← Int64.toInt_ofInt, hreduced]

theorem natAbs_mod_lt {x y : Int64} (hy : y ≠ 0) :
    (x % y).toInt.natAbs < y.toInt.natAbs := by
  have hpos : 0 < y.toInt.natAbs := by
    apply Int.natAbs_pos.mpr
    intro hzero
    exact hy (Int64.toInt_inj.mp hzero)
  rw [Int64.toInt_mod, Int.natAbs_tmod]
  exact Nat.mod_lt _ hpos

theorem mod_eq_zero_or_sign_eq (x y : Int64) : x % y = 0 ∨ (x % y).toInt.sign = x.toInt.sign := by
  rw [Int64.toInt_mod, Int.sign_tmod]
  by_cases hdvd : y.toInt ∣ x.toInt
  · left
    apply Int64.toInt_inj.mp
    rw [Int64.toInt_mod, Int.tmod_eq_zero_of_dvd hdvd]
    rfl
  · right
    rw [if_neg hdvd]

end Integer

/-! ## Instructions -/

namespace Opcode

/-- Whatever divides integers traps just for zero. -/
theorem traps_division_iff {op : BinaryOp} {onI64 : Int64 → Int64 → Int64}
    {onF64 : UInt64 → UInt64 → UInt64} (h : ∀ a b, op.apply a b = op.division onI64 onF64 a b)
    (x y : Int64) : (binary op).Traps [.i64 x, .i64 y] .divisionByZero ↔ y = 0 := by
  constructor
  · intro htraps
    by_cases hzero : y = 0
    · exact hzero
    · have hpushes : (binary op).Pushes [.i64 x, .i64 y] (.i64 (onI64 x y)) :=
        pushes_binary ((h _ _).trans (if_neg hzero))
      exact absurd htraps hpushes.not_traps
  · intro hzero
    exact traps_binary ((h _ _).trans (if_pos hzero))

theorem pushes_div (x : Int64) {y : Int64} (hy : y ≠ 0) :
    (binary .div).Pushes [.i64 x, .i64 y] (.i64 (x / y)) :=
  pushes_binary (if_neg hy)

theorem pushes_mod (x : Int64) {y : Int64} (hy : y ≠ 0) :
    (binary .mod).Pushes [.i64 x, .i64 y] (.i64 (x % y)) :=
  pushes_binary (if_neg hy)

end Opcode

/-! ## The division law in bytecode -/

/-- A function of `x` and `y` that computes `(x DIV y) MUL y ADD (x MOD y)`. -/
def recomposition (name : String) : FunctionDef :=
  ⟨name, 2, 2,
    #[{ opcode := .loadLocal, arg1 := 0 }, { opcode := .loadLocal, arg1 := 1 },
      { opcode := .binary .div }, { opcode := .loadLocal, arg1 := 1 }, { opcode := .binary .mul },
      { opcode := .loadLocal, arg1 := 0 }, { opcode := .loadLocal, arg1 := 1 },
      { opcode := .binary .mod }, { opcode := .binary .add }, { opcode := .ret }]⟩

open Opcode Activation in
theorem recomposition_returns (name : String) (x : Int64) {y : Int64} (hy : y ≠ 0) :
    (recomposition name).Returns [.i64 x, .i64 y] 5 (.i64 x) := by
  apply FunctionDef.returns_of_reaches rfl (Nat.le_add_right 2 3)
  intro ν a harguments hf hstack
  have hcode (pc : Nat) : a.chunk.instruction? a.index pc = (recomposition name).code[pc]? := by
    rw [Chunk.instruction?, hf]
  have hx : a.arguments[0]? = some (.i64 x) := by rw [harguments]; rfl
  have hy' : a.arguments[1]? = some (.i64 y) := by rw [harguments]; rfl
  have hroom {under : List Value} (h : under.length < 3) :
      (a.kept ++ a.arguments ++ under).length < a.world.machine.limits.stackDepth := by
    simp only [List.length_append, harguments, List.length_cons, List.length_nil]
    omega
  refine ⟨9, { opcode := .ret }, [], hcode 9, rfl, ?_⟩
  have hquotient : (a.config 2 [.i64 x, .i64 y]).Reaches (a.config 3 [.i64 (x / y)]) :=
    reaches_of_pushes [] (hcode 2) (pushes_div x hy) (hroom (by simp))
  have hproduct : (a.config 4 [.i64 (x / y), .i64 y]).Reaches (a.config 5 [.i64 (x / y * y)]) :=
    reaches_of_pushes [] (hcode 4) (pushes_binary rfl) (hroom (by simp))
  have hremainder : (a.config 7 [.i64 (x / y * y), .i64 x, .i64 y]).Reaches
      (a.config 8 [.i64 (x / y * y), .i64 (x % y)]) :=
    reaches_of_pushes [_] (hcode 7) (pushes_mod x hy) (hroom (by simp))
  have hsum : (a.config 8 [.i64 (x / y * y), .i64 (x % y)]).Reaches
      (a.config 9 [.i64 (x / y * y + x % y)]) :=
    reaches_of_pushes [] (hcode 8) (pushes_binary rfl) (hroom (by simp))
  rw [Integer.div_mul_add_mod] at hsum
  calc
    Config.Reaches (a.config 0 []) (a.config 1 [.i64 x]) :=
      reaches_of_loadLocal (hcode 0) rfl hx (hroom (by simp))
    Config.Reaches _ (a.config 2 [.i64 x, .i64 y]) :=
      reaches_of_loadLocal (hcode 1) rfl hy' (hroom (by simp))
    Config.Reaches _ (a.config 3 [.i64 (x / y)]) := hquotient
    Config.Reaches _ (a.config 4 [.i64 (x / y), .i64 y]) :=
      reaches_of_loadLocal (hcode 3) rfl hy' (hroom (by simp))
    Config.Reaches _ (a.config 5 [.i64 (x / y * y)]) := hproduct
    Config.Reaches _ (a.config 6 [.i64 (x / y * y), .i64 x]) :=
      reaches_of_loadLocal (hcode 5) rfl hx (hroom (by simp))
    Config.Reaches _ (a.config 7 [.i64 (x / y * y), .i64 x, .i64 y]) :=
      reaches_of_loadLocal (hcode 6) rfl hy' (hroom (by simp))
    Config.Reaches _ (a.config 8 [.i64 (x / y * y), .i64 (x % y)]) := hremainder
    Config.Reaches _ (a.config 9 [.i64 x]) := hsum

/-- Integer arithmetic is exact modulo `2 ^ 64` and total except for division by zero. Sums,
differences, products and negations are the integers reduced to 64 bits, `x` being pushed first.
Division traps just for zero, and otherwise leaves the truncated quotient and the remainder,
reduced: these make up the dividend, the remainder is less than the divisor and has the sign of the
dividend. So bytecode that puts a dividend together again returns it. -/
theorem integer_arithmetic_is_exact (x y : Int64) :
    let div := Opcode.binary .div
    let mod := Opcode.binary .mod
    (Opcode.binary .add).Pushes [.i64 x, .i64 y] (.i64 (.ofInt (x.toInt + y.toInt))) ∧
    (Opcode.binary .sub).Pushes [.i64 x, .i64 y] (.i64 (.ofInt (x.toInt - y.toInt))) ∧
    (Opcode.binary .mul).Pushes [.i64 x, .i64 y] (.i64 (.ofInt (x.toInt * y.toInt))) ∧
    (Opcode.unary .neg).Pushes [.i64 x] (.i64 (.ofInt (-x.toInt))) ∧
    (div.Traps [.i64 x, .i64 y] .divisionByZero ↔ y = 0) ∧
    (mod.Traps [.i64 x, .i64 y] .divisionByZero ↔ y = 0) ∧
    (y ≠ 0 →
      (∃ q r : Int64, div.Pushes [.i64 x, .i64 y] (.i64 q) ∧ mod.Pushes [.i64 x, .i64 y] (.i64 r) ∧
        q = .ofInt (x.toInt.tdiv y.toInt) ∧ r = .ofInt (x.toInt.tmod y.toInt) ∧
        (x = .minValue → y = -1 → q = .minValue ∧ r = 0) ∧
        (q.toInt * y.toInt + r.toInt) % Int64.size = x.toInt % Int64.size ∧
        r.toInt.natAbs < y.toInt.natAbs ∧ (r = 0 ∨ r.toInt.sign = x.toInt.sign)) ∧
      ∀ name, (recomposition name).Returns [.i64 x, .i64 y] 5 (.i64 x)) := by
  intro div mod
  refine ⟨?_, ?_, ?_, ?_, ?_, ?_, fun hy ↦ ⟨⟨x / y, x % y, ?_, ?_, ?_, ?_, ?_, ?_, ?_, ?_⟩, ?_⟩⟩
  · rw [← Integer.add_eq_ofInt]
    exact Opcode.pushes_binary rfl
  · rw [← Integer.sub_eq_ofInt]
    exact Opcode.pushes_binary rfl
  · rw [← Integer.mul_eq_ofInt]
    exact Opcode.pushes_binary rfl
  · rw [← Integer.neg_eq_ofInt]
    exact Opcode.pushes_unary rfl
  · exact Opcode.traps_division_iff (fun _ _ ↦ rfl) x y
  · exact Opcode.traps_division_iff (fun _ _ ↦ rfl) x y
  · exact Opcode.pushes_div x hy
  · exact Opcode.pushes_mod x hy
  · exact Integer.div_eq_ofInt x y
  · exact Integer.mod_eq_ofInt x y
  · rintro rfl rfl
    decide
  · exact Integer.div_mul_add_mod_emod x y
  · exact Integer.natAbs_mod_lt hy
  · exact Integer.mod_eq_zero_or_sign_eq x y
  · intro name
    exact recomposition_returns name x hy

/-! ## The quotient that does not fit -/

namespace Recomposed

def chunk : Chunk :=
  ⟨#[], #[recomposition "again"]⟩

theorem verified : chunk.Verified :=
  Verify.verified_of_single (by decide) (by decide) (by decide) (by decide) (by decide)

/-- The machine with the least integer and `-1` on its stack. -/
def world : World Empty :=
  ⟨{ stack := ⟨#[.i64 .minValue, .i64 (-1)], 0⟩, chunk := some chunk }, {}, #[]⟩

theorem dispatch_world : world.machine.dispatch "again" 2 = .ok (.code chunk 0) :=
  @dispatch_of_loaded _ world.machine chunk 0 (recomposition "again") verified rfl rfl
    (by simp [world, HostRegistry.get?]) (by decide)

end Recomposed

theorem integer_arithmetic_is_exact_at_the_least :
    (-1 : Int64) ≠ 0 ∧
      (Opcode.binary .div).Pushes [.i64 .minValue, .i64 (-1)] (.i64 .minValue) ∧
      (Opcode.binary .mod).Pushes [.i64 .minValue, .i64 (-1)] (.i64 0) ∧
      Recomposed.world.CallReturns "again" 2 (.ok ())
        ((Recomposed.world.log (.codeCalled "again" 2)).withValues [.i64 .minValue]) := by
  have hne : (-1 : Int64) ≠ 0 := by decide
  obtain ⟨-, -, -, -, -, -, hdivision⟩ := integer_arithmetic_is_exact .minValue (-1)
  obtain ⟨⟨q, r, hq, hr, -, -, hleast, -⟩, hreturns⟩ := hdivision hne
  obtain ⟨rfl, rfl⟩ := hleast rfl rfl
  exact ⟨hne, hq, hr, hreturns "again" Recomposed.world "again" Recomposed.chunk 0 [] rfl
    Recomposed.dispatch_world rfl (by decide) (by decide) (by decide)⟩

end Bytecode
