import Bytecode.Proofs.Evaluation

/-!
# Comparisons

Six instructions compare two values, and they are computed in two ways: equality looks whether the
values are the same, the four orderings go by a three-way comparison that each of them reads in its
own way. On integers and on strings the two agree, and the six together are one total order.

This comes down to three facts about the three-way comparison: it finds two values equal just if
they are the same, it finds the opposite if they change places, and what it finds to be less is a
transitive relation. For strings the relation is the lexicographic order of the bytes (`List.Lex`),
and these facts are those of that order.
-/

namespace Bytecode

/-! ## What the instructions answer -/

namespace BinaryOp

/-- The comparison of `a` with `b`, where `a` is pushed first, pushes true. -/
def Holds (op : BinaryOp) (a b : Value) : Prop :=
  (Opcode.binary op).Pushes [a, b] (.bool true)

/-- The six operators that compare. -/
def comparisons : List BinaryOp :=
  [.lt, .eq, .gt, .lte, .gte, .neq]

/-- Whether a comparison is true of two values that stand in this order. -/
def accepts : BinaryOp → Ordering → Bool
  | .lt, found => found == .lt
  | .eq, found => found == .eq
  | .gt, found => found == .gt
  | .lte, found => found != .gt
  | .gte, found => found != .lt
  | .neq, found => found != .eq
  | _, _ => false

end BinaryOp

open BinaryOp

/-- All six comparisons of `a` with `b` answer as for values in this order. -/
def Value.Compares (a b : Value) (found : Ordering) : Prop :=
  ∀ op ∈ comparisons, (Opcode.binary op).Pushes [a, b] (.bool (op.accepts found))

namespace Value

variable {a b : Value} {found : Ordering} {op : BinaryOp}

/-- The six agree if equality and the three-way comparison do. -/
theorem compares_of_order (horder : ∀ op, BinaryOp.order op a b = .ok (some found))
    (hequal : BinaryOp.equal a b = (found == .eq)) : a.Compares b found := by
  intro op hop
  apply Opcode.pushes_binary
  have hordering (test : Ordering → Bool) : op.ordering test a b = .ok (.bool (test found)) := by
    rw [ordering, horder]
    rfl
  simp only [comparisons, List.mem_cons, List.not_mem_nil, or_false] at hop
  rcases hop with rfl | rfl | rfl | rfl | rfl | rfl
  · exact hordering _
  · rw [apply, hequal, accepts]
  · exact hordering _
  · exact hordering _
  · exact hordering _
  · rw [apply, hequal, accepts]
    rfl

theorem Compares.holds_iff (h : a.Compares b found) (hop : op ∈ comparisons) :
    op.Holds a b ↔ op.accepts found = true := by
  constructor
  · intro hholds
    exact (Value.bool.inj (hholds.unique (h op hop))).symm
  · intro haccepts
    have hpushes := h op hop
    rw [haccepts] at hpushes
    exact hpushes

end Value

/-! ## Total orders -/

/-- On the values of one kind, the six comparisons all answer, and together they are one total order
in which the equal values are the same. -/
structure TotallyOrdered {α : Type} (embed : α → Value) : Prop where
  answers (a b : α) : ∀ op ∈ comparisons,
    ∃ answer, (Opcode.binary op).Pushes [embed a, embed b] (.bool answer)
  exactly_one (a b : α) :
    (lt.Holds (embed a) (embed b) ∧ ¬eq.Holds (embed a) (embed b) ∧ ¬gt.Holds (embed a) (embed b)) ∨
    (¬lt.Holds (embed a) (embed b) ∧ eq.Holds (embed a) (embed b) ∧ ¬gt.Holds (embed a) (embed b)) ∨
    (¬lt.Holds (embed a) (embed b) ∧ ¬eq.Holds (embed a) (embed b) ∧ gt.Holds (embed a) (embed b))
  eq_iff (a b : α) : eq.Holds (embed a) (embed b) ↔ a = b
  neq_iff (a b : α) : neq.Holds (embed a) (embed b) ↔ ¬eq.Holds (embed a) (embed b)
  lte_iff (a b : α) :
    lte.Holds (embed a) (embed b) ↔ lt.Holds (embed a) (embed b) ∨ eq.Holds (embed a) (embed b)
  gte_iff (a b : α) :
    gte.Holds (embed a) (embed b) ↔ gt.Holds (embed a) (embed b) ∨ eq.Holds (embed a) (embed b)
  gt_iff (a b : α) : gt.Holds (embed a) (embed b) ↔ lt.Holds (embed b) (embed a)
  lt_trans (a b c : α) :
    lt.Holds (embed a) (embed b) → lt.Holds (embed b) (embed c) → lt.Holds (embed a) (embed c)

section Laws

variable {α : Type} {embed : α → Value} {cmp : α → α → Ordering}

theorem compares_of_lawful [BEq α] [LawfulBEq α] [Std.LawfulEqCmp cmp]
    (horder : ∀ op a b, BinaryOp.order op (embed a) (embed b) = .ok (some (cmp a b)))
    (hequal : ∀ a b, BinaryOp.equal (embed a) (embed b) = (a == b)) (a b : α) :
    (embed a).Compares (embed b) (cmp a b) := by
  apply Value.compares_of_order fun op ↦ horder op a b
  rw [hequal, Bool.eq_iff_iff, beq_iff_eq, beq_iff_eq, Std.LawfulEqCmp.compare_eq_iff_eq]

/-- Instructions that go by a lawful three-way comparison are a total order. -/
theorem totallyOrdered_of_compares [Std.TransCmp cmp] [Std.LawfulEqCmp cmp]
    (hcompares : ∀ a b, (embed a).Compares (embed b) (cmp a b)) : TotallyOrdered embed := by
  have hlt (a b : α) : lt.Holds (embed a) (embed b) ↔ cmp a b = .lt :=
    ((hcompares a b).holds_iff (by decide)).trans beq_iff_eq
  have heq (a b : α) : eq.Holds (embed a) (embed b) ↔ cmp a b = .eq :=
    ((hcompares a b).holds_iff (by decide)).trans beq_iff_eq
  have hgt (a b : α) : gt.Holds (embed a) (embed b) ↔ cmp a b = .gt :=
    ((hcompares a b).holds_iff (by decide)).trans beq_iff_eq
  have hlte (a b : α) : lte.Holds (embed a) (embed b) ↔ cmp a b ≠ .gt :=
    ((hcompares a b).holds_iff (by decide)).trans bne_iff_ne
  have hgte (a b : α) : gte.Holds (embed a) (embed b) ↔ cmp a b ≠ .lt :=
    ((hcompares a b).holds_iff (by decide)).trans bne_iff_ne
  have hneq (a b : α) : neq.Holds (embed a) (embed b) ↔ cmp a b ≠ .eq :=
    ((hcompares a b).holds_iff (by decide)).trans bne_iff_ne
  constructor
  · intro a b op hop
    exact ⟨_, hcompares a b op hop⟩
  · intro a b
    rw [hlt, heq, hgt]
    cases cmp a b <;> simp
  · intro a b
    rw [heq, Std.LawfulEqCmp.compare_eq_iff_eq]
  · intro a b
    rw [hneq, heq]
  · intro a b
    rw [hlte, hlt, heq]
    cases cmp a b <;> simp
  · intro a b
    rw [hgte, hgt, heq]
    cases cmp a b <;> simp
  · intro a b
    rw [hgt, hlt]
    exact Std.OrientedCmp.gt_iff_lt
  · intro a b c
    rw [hlt, hlt, hlt]
    exact Std.TransCmp.lt_trans

end Laws

/-! ## Integers -/

theorem compares_i64 (x y : Int64) : (Value.i64 x).Compares (.i64 y) (compare x y) :=
  compares_of_lawful (fun _ _ _ ↦ rfl) (fun _ _ ↦ rfl) x y

theorem holds_lt_i64_iff (x y : Int64) : lt.Holds (.i64 x) (.i64 y) ↔ x.toInt < y.toInt := by
  rw [(compares_i64 x y).holds_iff (by decide), ← Int64.lt_iff_toInt_lt, accepts, beq_iff_eq]
  exact compareOfLessAndEq_eq_lt

/-! ## Strings -/

namespace Bytes

/-- The order of strings is the lexicographic one of the library. -/
theorem compare_eq_compareLex : Bytes.compare = List.compareLex (@Ord.compare UInt8 _) := by
  funext x y
  fun_induction Bytes.compare x y with
  | case1 => rfl
  | case2 => rfl
  | case3 => rfl
  | case4 a as b bs hlt =>
    rw [List.compareLex_cons_cons, Std.compare_eq_lt.mpr hlt]
    rfl
  | case5 a as b bs _ hgt =>
    rw [List.compareLex_cons_cons, Std.compare_eq_gt.mpr hgt]
    rfl
  | case6 a as b bs hlt hgt ih =>
    have heq : a = b := UInt8.le_antisymm (UInt8.not_lt.mp hgt) (UInt8.not_lt.mp hlt)
    rw [List.compareLex_cons_cons, Std.compare_eq_iff_eq.mpr heq, ih]
    rfl

instance : Std.TransCmp Bytes.compare := by
  rw [compare_eq_compareLex]
  infer_instance

instance : Std.LawfulEqCmp Bytes.compare := by
  rw [compare_eq_compareLex]
  infer_instance

theorem compare_eq_lt_iff (x y : Bytes) : Bytes.compare x y = .lt ↔ List.Lex (· < ·) x y := by
  fun_induction Bytes.compare x y with
  | case1 => simp
  | case2 => simp
  | case3 => simp
  | case4 a as b bs hlt => simp [List.cons_lex_cons_iff, hlt]
  | case5 a as b bs hlt hgt =>
    have hne : a ≠ b := fun heq ↦ UInt8.lt_irrefl b (heq ▸ hgt)
    simp [List.cons_lex_cons_iff, hlt, hne]
  | case6 a as b bs hlt hgt ih =>
    have heq : a = b := UInt8.le_antisymm (UInt8.not_lt.mp hgt) (UInt8.not_lt.mp hlt)
    simp [List.cons_lex_cons_iff, heq, ih]

theorem lex_append_self (x : Bytes) {y : Bytes} (hy : y ≠ []) : List.Lex (· < ·) x (x ++ y) := by
  induction x with
  | nil =>
    obtain ⟨b, bs, rfl⟩ := List.exists_cons_of_ne_nil hy
    exact .nil
  | cons a as ih => exact .cons ih

theorem append_lex_append_iff (z x y : Bytes) :
    List.Lex (· < ·) (z ++ x) (z ++ y) ↔ List.Lex (· < ·) x y := by
  induction z with
  | nil => exact Iff.rfl
  | cons a as ih => simp [List.cons_lex_cons_iff, ih]

end Bytes

theorem compares_str (x y : Bytes) : (Value.str x).Compares (.str y) (Bytes.compare x y) :=
  compares_of_lawful (fun _ _ _ ↦ rfl) (fun _ _ ↦ rfl) x y

theorem holds_lt_str_iff (x y : Bytes) :
    lt.Holds (.str x) (.str y) ↔ List.Lex (· < ·) x y := by
  rw [(compares_str x y).holds_iff (by decide), accepts, beq_iff_eq, Bytes.compare_eq_lt_iff]

theorem pushes_concat (x y : Bytes) :
    (Opcode.binary .concat).Pushes [.str x, .str y] (.str (x ++ y)) :=
  Opcode.pushes_binary rfl

/-- What the six comparisons answer for integers is one total order, that of the numbers, and so is
what they answer for strings, that of the bytes from the left. Extending a string on the right makes
it greater, and extending two strings by the same one on the left keeps their order. -/
theorem comparisons_are_total_orders :
    TotallyOrdered Value.i64 ∧ TotallyOrdered Value.str ∧
    (∀ x y : Int64, lt.Holds (.i64 x) (.i64 y) ↔ x.toInt < y.toInt) ∧
    (∀ x y : Bytes, lt.Holds (.str x) (.str y) ↔ List.Lex (· < ·) x y) ∧
    (∀ x y : Bytes, y ≠ [] →
      (Opcode.binary .concat).Pushes [.str x, .str y] (.str (x ++ y)) ∧
      gt.Holds (.str (x ++ y)) (.str x)) ∧
    (∀ z x y : Bytes,
      (Opcode.binary .concat).Pushes [.str z, .str x] (.str (z ++ x)) ∧
      (Opcode.binary .concat).Pushes [.str z, .str y] (.str (z ++ y)) ∧
      (lt.Holds (.str (z ++ x)) (.str (z ++ y)) ↔ lt.Holds (.str x) (.str y))) := by
  have hstr : TotallyOrdered Value.str := totallyOrdered_of_compares compares_str
  refine ⟨totallyOrdered_of_compares compares_i64, hstr, holds_lt_i64_iff, holds_lt_str_iff, ?_, ?_⟩
  · intro x y hy
    refine ⟨pushes_concat x y, ?_⟩
    rw [hstr.gt_iff, holds_lt_str_iff]
    exact Bytes.lex_append_self x hy
  · intro z x y
    refine ⟨pushes_concat z x, pushes_concat z y, ?_⟩
    rw [holds_lt_str_iff, holds_lt_str_iff]
    exact Bytes.append_lex_append_iff z x y

/-- Bytes have no sign: the last of them comes after every other, though not after a longer string
that begins with it. -/
theorem comparisons_are_total_orders_high_bytes :
    lt.Holds (.str [0x61, 0x7f]) (.str [0x61, 0xff]) ∧
    gt.Holds (.str [0x61, 0xff, 0x00]) (.str [0x61, 0xff]) := by
  obtain ⟨-, -, -, hlt, hextend, hleft⟩ := comparisons_are_total_orders
  constructor
  · exact (hleft [0x61] [0x7f] [0xff]).2.2.mpr ((hlt _ _).mpr (.rel (by decide)))
  · exact (hextend [0x61, 0xff] [0x00] (by decide)).2

end Bytecode
