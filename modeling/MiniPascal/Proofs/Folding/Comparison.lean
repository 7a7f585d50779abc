import MiniPascal.Proofs.Folding.Exact
import MiniPascal.Proofs.Lowering.Expression

/-! Comparisons of doubles. Constants that are not numbers differ from themselves when folded, and
do not when the program runs. -/

namespace MiniPascal

/-- The order of two doubles; words that are not numbers have none. -/
def Double.order? (x y : Double) : Option Ordering :=
  if x.isNaN || y.isNaN then none else some (compare x.rank y.rank)

/-- Whether an ordered predicate holds of two doubles. -/
def Ir.Predicate.fcmp (predicate : Predicate) (x y : Double) : Bool :=
  (x.order? y).any predicate.holds

variable {op : BinOp} {f : Ordering → Bool} {x y : Double}

theorem Double.isSome_order : (x.order? y).isSome = true ↔ x.isNaN = false ∧ y.isNaN = false := by
  unfold order?
  cases x.isNaN <;> cases y.isNaN <;> simp

theorem Double.le_eq (x y : Double) :
    x.le y = (!x.isNaN && !y.isNaN && decide (x.rank ≤ y.rank)) := by
  have hle : decide (x.rank ≤ y.rank) = (decide (x.rank < y.rank) || decide (x.rank = y.rank)) := by
    rw [← Bool.decide_or]
    exact decide_eq_decide.2 le_iff_lt_or_eq
  rw [le, lt, eq, hle, Bool.and_or_distrib_left]

theorem demand_of_isRelational (h : op.isRelational = true) : ∃ f, op.demand? = some f := by
  cases op <;> cases h <;> exact ⟨_, rfl⟩

/-! ### Folded comparisons -/

namespace Constant

theorem compareDouble_ranks (h : op.demand? = some f) (hop : op ≠ .notEqual) (x y : Double) :
    compareDouble op x y = (!x.isNaN && !y.isNaN && compareInt op x.rank y.rank) := by
  cases op <;> cases h
  case equal | less => rfl
  case notEqual => exact absurd rfl hop
  case lessEqual => exact x.le_eq y
  case greater => exact congrArg (· && _) (Bool.and_comm _ _)
  case greaterEqual => exact (y.le_eq x).trans (congrArg (· && _) (Bool.and_comm _ _))

/-- But for `<>`, a relation of two doubles is one of their order. -/
theorem compareDouble_eq (h : op.demand? = some f) (hop : op ≠ .notEqual) (x y : Double) :
    compareDouble op x y = (x.order? y).any f := by
  rw [compareDouble_ranks h hop, compareInt_eq h, Double.order?]
  cases x.isNaN <;> cases y.isNaN <;> rfl

/-- Doubles differ where they are not equal, also where they have no order. -/
theorem compareDouble_notEqual (x y : Double) :
    compareDouble .notEqual x y = !(x.order? y).any Ordering.isEq :=
  congrArg (!·) (@compareDouble_eq .equal _ rfl nofun x y)

end Constant

/-! ### Emitted comparisons -/

open Lowering (fresh spend operationOf)

theorem operationOf_demand (h : op.demand? = some f) :
    ∃ predicate, operationOf op true = .comparison predicate ∧ predicate.isFloat = true ∧
      predicate.holds = f := by
  cases op <;> cases h <;> exact ⟨_, rfl, rfl, funext fun o => rfl⟩

theorem value_comparison {predicate : Ir.Predicate} (hop : op.isRelational = true)
    (h : operationOf op true = .comparison predicate) (p q r : Position) (x y : Double)
    (g : Lowering.Generator) :
    Lowering.value (.binary p .boolean op (.double q x) (.double r y)) g =
      (.local (fresh p "" g.names), g.emit
        [.compare (fresh p "" g.names) predicate .double (.double x) (.double y)]
        (spend p "" g.names)) := by
  cases op <;> cases hop <;> cases h <;> rfl

/-- The checks build the comparison of two literals. It is folded to the truth value, and its code
is one comparison with the predicate. -/
def Compares (op : BinOp) (x y : Double) (folded : Bool) (predicate : Ir.Predicate) : Prop :=
  ∀ p q r, ∃ e, Expr.checkBinary op (.double q x) (.double r y) p = .ok e ∧
    e.fold = .ok (.bool folded) ∧ ∀ g, ∃ output ν, Lowering.value e g = (.local output,
      g.emit [.compare output predicate .double (.double x) (.double y)] ν) ∧
    (Ir.Instr.compare output predicate .double (.double x) (.double y)).line? =
      some ("  %" ++ output ++ " = fcmp " ++ predicate.describe ++ " " ++
        Ir.describeTyped (.double, .double x) ++ ", " ++ (Ir.Operand.double y).describe)

theorem compares_of_isRelational {predicate : Ir.Predicate} (hop : op.isRelational = true)
    (h : operationOf op true = .comparison predicate) (hfloat : predicate.isFloat = true)
    (x y : Double) : Compares op x y (Constant.compareDouble op x y) predicate := by
  intro p q r
  refine ⟨.binary p .boolean op (.double q x) (.double r y), ?_, ?_, fun g =>
    ⟨_, _, value_comparison hop h p q r x y g, ?_⟩⟩
  · cases op <;> cases hop <;> rfl
  · cases op <;> cases hop <;> rfl
  · have hjoin (s : String) : s ++ " = " ++ "fcmp " = s ++ " = fcmp " := String.append_assoc
    rw [Ir.Instr.line?, if_pos hfloat, hjoin]

theorem isNe_eq (o : Ordering) : o.isNe = !o.isEq := by
  cases o <;> rfl

theorem any_isNe_iff (o : Option Ordering) :
    o.any Ordering.isNe = (!o.any Ordering.isEq) ↔ o.isSome = true := by
  cases o with
  | none => exact ⟨nofun, nofun⟩
  | some o => exact ⟨fun _ => rfl, fun _ => isNe_eq o⟩

/-- The code for a comparison of two doubles gives the truth value that it is folded to, but for the
`<>` of operands of which one is not a number. Folded, `<>` is the negation of `=`; in the code it
is so where both operands are numbers. -/
theorem compares_doubles (hop : op.isRelational = true) (x y : Double) :
    (∃ c predicate, Compares op x y c predicate ∧
      (predicate.fcmp x y = c ↔ (op = .notEqual → x.isNaN = false ∧ y.isNaN = false))) ∧
    ∃ c d equal unequal, Compares .equal x y c equal ∧ Compares .notEqual x y d unequal ∧
      d = !c ∧ (unequal.fcmp x y = (!equal.fcmp x y) ↔ x.isNaN = false ∧ y.isNaN = false) := by
  have hne : Ir.Predicate.one.fcmp x y = (!Ir.Predicate.oeq.fcmp x y) ↔
      x.isNaN = false ∧ y.isNaN = false := by
    rw [← Double.isSome_order]
    exact any_isNe_iff (x.order? y)
  refine ⟨?_, _, _, _, _, compares_of_isRelational rfl rfl rfl x y,
    compares_of_isRelational rfl rfl rfl x y, rfl, hne⟩
  obtain ⟨f, hf⟩ := demand_of_isRelational hop
  obtain ⟨predicate, hpredicate, hfloat, rfl⟩ := operationOf_demand hf
  refine ⟨_, predicate, compares_of_isRelational hop hpredicate hfloat x y, ?_⟩
  by_cases hunequal : op = .notEqual
  · subst hunequal
    cases hpredicate
    rw [Constant.compareDouble_notEqual]
    exact hne.trans ⟨fun h _ => h, fun h => h rfl⟩
  · rw [Constant.compareDouble_eq hf hunequal]
    exact iff_of_true rfl fun h => absurd h hunequal

/-- Infinity is not less than itself, folded or in the code. -/
theorem compares_doubles_infinity :
    BinOp.less.isRelational = true ∧
    (∃ c predicate, Compares .less .infinity .infinity c predicate ∧
      (predicate.fcmp .infinity .infinity = c ↔ (BinOp.less = .notEqual →
        Double.infinity.isNaN = false ∧ Double.infinity.isNaN = false))) ∧
    ∃ c d equal unequal, Compares .equal .infinity .infinity c equal ∧
      Compares .notEqual .infinity .infinity d unequal ∧ d = !c ∧
      (unequal.fcmp .infinity .infinity = (!equal.fcmp .infinity .infinity) ↔
        Double.infinity.isNaN = false ∧ Double.infinity.isNaN = false) :=
  ⟨rfl, compares_doubles rfl _ _⟩

/-- A word that is not a number is folded to be different from itself. In the code it is neither
equal to itself nor different. -/
theorem nan_unequal :
    let x : Double := ⟨0x7FF8000000000000⟩
    Compares .notEqual x x true .one ∧ Ir.Predicate.one.fcmp x x = false ∧
    Compares .equal x x false .oeq ∧ Ir.Predicate.oeq.fcmp x x = false :=
  ⟨compares_of_isRelational rfl rfl rfl _ _, rfl, compares_of_isRelational rfl rfl rfl _ _, rfl⟩

end MiniPascal
