import MiniPascal.Proofs.Folding.Exact
import MiniPascal.Proofs.Semantics.Evaluation

/-! Folding has 64 bits and the machine has 32, so constants are what programs compute while they
fit 32 bits. -/

namespace MiniPascal

namespace Constant

/-- The constant as a value. -/
def val : Constant → Val
  | int n => .int n.toInt32
  | double x => .double x
  | bool b => .bool b

/-- The constant as the machine holds it. -/
def image : Constant → Ir.Value
  | int n => .int n
  | double x => .double x
  | bool b => .bool b

variable {a b c : Constant} {m n : Int64} {p : Position}

/-! ### Words -/

theorem toInt64_toInt32 (hm : Grammar.fitsWord m = true) : m.toInt32.toInt64 = m := by
  have hbounds := (Grammar.fitsWord_iff m).1 hm
  refine Int64.toInt_inj.1 ?_
  rw [Int32.toInt_toInt64, Int64.toInt_toInt32]
  exact Int.bmod_eq_of_le (by omega) (by omega)

theorem toInt_toInt32 (hm : Grammar.fitsWord m = true) : m.toInt32.toInt = m.toInt := by
  rw [← Int32.toInt_toInt64, toInt64_toInt32 hm]

theorem toInt32_div (hm : Grammar.fitsWord m = true) (hn : Grammar.fitsWord n = true) :
    (m / n).toInt32 = m.toInt32 / n.toInt32 := by
  rw [← div_wrap, toInt64_toInt32 hm, toInt64_toInt32 hn]

theorem toInt32_mod (hm : Grammar.fitsWord m = true) (hn : Grammar.fitsWord n = true) :
    (m % n).toInt32 = m.toInt32 % n.toInt32 := by
  rw [← mod_wrap, toInt64_toInt32 hm, toInt64_toInt32 hn]

theorem toInt32_eq_zero (hn : Grammar.fitsWord n = true) : n.toInt32 = 0 ↔ n = 0 := by
  rw [← toInt64_eq_zero, toInt64_toInt32 hn]

theorem val_image (h : c.Fits) : c.val.image = c.image := by
  cases c with
  | int n => exact congrArg Ir.Value.int (toInt64_toInt32 h)
  | double | bool => rfl

/-! ### Operators -/

theorem checked_ok {n : Int} (h : checked n p = .ok c) : c = .int (Int64.ofInt n) := by
  rcases checked_cases n p with ⟨m, rfl, hm⟩ | ⟨-, hn⟩
  · rw [hm] at h
    cases h
    rw [Int64.ofInt_toInt]
  · rw [hn] at h
    cases h

/-- What an operator makes of a constant that is not a double, it makes of its value. -/
theorem unary_val (F : Floats) {op : UnaryOp} (ht : op.accepts (.scalar a.scalar) = true)
    (hd : a.scalar ≠ .double) (h : unary op a p = .ok c) : op.apply F a.val = some c.val := by
  cases a with
  | int n =>
    cases op
    case plus =>
      cases h
      rfl
    case minus =>
      obtain rfl := checked_ok h
      rw [Int64.ofInt_neg, Int64.ofInt_toInt]
      exact congrArg (some ∘ Val.int) (Int64.toInt32_neg n).symm
    case not =>
      cases h
      exact congrArg (some ∘ Val.int) (Int64.toInt32_not n).symm
  | double => exact absurd rfl hd
  | bool b =>
    cases op <;> cases ht
    cases h
    rfl

theorem onInts_demand {op : BinOp} {f : Ordering → Bool} (h : op.demand? = some f) (i j : Int32) :
    op.onInts i j = some (.bool (f (compare i.toInt j.toInt))) := by
  cases op <;> cases h <;> rfl

/-- Sums, differences and products that 64 bits hold are wrapped as the machine does; quotients,
remainders and comparisons are those of the numbers of 32 bits. -/
theorem binaryInt_val {op : BinOp} {s : Scalar} (hop : op ≠ .divide)
    (ht : op.result? .integer .integer = some s) (hm : Grammar.fitsWord m = true)
    (hn : Grammar.fitsWord n = true) (h : binaryInt op m n p = .ok c) :
    op.onInts m.toInt32 n.toInt32 = some c.val := by
  have hdemand {f : Ordering → Bool} (hf : op.demand? = some f) :
      op.onInts m.toInt32 n.toInt32 = some c.val := by
    rw [binaryInt_demand hf] at h
    cases h
    rw [onInts_demand hf, toInt_toInt32 hm, toInt_toInt32 hn]
    rfl
  cases op <;> cases ht
  case add =>
    obtain rfl := checked_ok h
    rw [Int64.ofInt_add, Int64.ofInt_toInt, Int64.ofInt_toInt]
    exact congrArg (some ∘ Val.int) (Int64.toInt32_add m n).symm
  case sub =>
    obtain rfl := checked_ok h
    rw [Int64.ofInt_sub, Int64.ofInt_toInt, Int64.ofInt_toInt]
    exact congrArg (some ∘ Val.int) (Int64.toInt32_sub m n).symm
  case mul =>
    obtain rfl := checked_ok h
    rw [Int64.ofInt_mul, Int64.ofInt_toInt, Int64.ofInt_toInt]
    exact congrArg (some ∘ Val.int) (Int64.toInt32_mul m n).symm
  case div =>
    obtain ⟨hzero, rfl⟩ := (binaryInt_div m n p).of_ok h
    rw [BinOp.onInts, if_neg (mt (toInt32_eq_zero hn).1 hzero), val, toInt32_div hm hn]
  case mod =>
    obtain ⟨hzero, rfl⟩ := (binaryInt_mod m n p).of_ok h
    rw [BinOp.onInts, if_neg (mt (toInt32_eq_zero hn).1 hzero), val, toInt32_mod hm hn]
  case and =>
    cases h
    exact congrArg (some ∘ Val.int) (Int64.toInt32_and m n).symm
  case or =>
    cases h
    exact congrArg (some ∘ Val.int) (Int64.toInt32_or m n).symm
  case divide => exact absurd rfl hop
  -- the relations, which 32 bits keep since the operands fit
  all_goals exact hdemand rfl

/-- What an operator makes of constants that are truth values and numbers of 32 bits, it makes of
their values. -/
theorem binary_val (F : Floats) {op : BinOp} {s : Scalar} (hop : op ≠ .divide)
    (ht : op.result? (.scalar a.scalar) (.scalar b.scalar) = some s) (hda : a.scalar ≠ .double)
    (hdb : b.scalar ≠ .double) (ha : a.Fits) (hb : b.Fits) (h : binary op a b p = .ok c) :
    op.apply F a.val b.val = some c.val := by
  cases a <;> cases b
  case int.int m n =>
    have hints : binaryInt op m n p = .ok c := by
      rw [← h]
      cases op <;> rfl
    exact (if_neg hop).trans (binaryInt_val hop ht ha hb hints)
  case bool.bool x y =>
    cases op <;> cases ht <;> cases h
    case and | or => rfl
    all_goals cases x <;> cases y <;> rfl
  case double.int | double.double | double.bool => exact absurd rfl hda
  case int.double | bool.double => exact absurd rfl hdb
  case int.bool | bool.int => cases op <;> cases ht

end Constant

namespace Expr

variable {e l r : Expr} {p : Position} {c : Constant}

theorem fold_unary_ok {t : Ty} {op : UnaryOp} (h : (Expr.unary p t op e).fold = .ok c) :
    ∃ a, e.fold = .ok a ∧ Constant.unary op a p = .ok c := by
  rw [fold] at h
  exact ok_of_bind h

theorem fold_binary_ok {t : Ty} {op : BinOp} (h : (Expr.binary p t op l r).fold = .ok c) :
    ∃ a b, l.fold = .ok a ∧ r.fold = .ok b ∧ Constant.binary op a b p = .ok c := by
  rw [fold] at h
  obtain ⟨a, ha, h⟩ := ok_of_bind h
  obtain ⟨b, hb, h⟩ := ok_of_bind h
  exact ⟨a, b, ha, hb, h⟩

namespace Constructed

/-- Expressions of integers and truth values are not folded to doubles. -/
theorem not_double (h : e.Constructed) (hi : e.isIntegral = true) (hc : e.fold = .ok c) :
    c.scalar ≠ .double := by
  rcases h.verdict hi with ⟨d, v, hd, hv, -⟩ | hfirst
  · rw [hd] at hc
    cases hc
    cases c
    case double => cases hv
    all_goals nofun
  · obtain ⟨x, hx⟩ := hfirst.error
    rw [hx] at hc
    cases hc

/-- What is folded from numbers of 32 bits obeys the rules and calls nothing, and its constant is
the value of it. -/
theorem evaluates (h : e.Constructed) (hi : e.isIntegral = true) (hc : e.fold = .ok c)
    (hfits : ∀ d ∈ e.postorder, ∀ a, d.fold = .ok a → a.Fits) (Γ : Context) (F : Floats)
    (ρ : Stores) : e.Checked Γ ∧ e.callFree = true ∧ e.evalIn F ρ = some c.val := by
  induction h generalizing c with
  | @int p v =>
    rcases fold_int p v with ⟨m, hm, hf⟩ | ⟨-, hf⟩ <;> rw [hf] at hc <;> cases hc
    -- a literal that fits the machine is one that the rules allow
    have hword := (Grammar.fitsWord_iff m).1 (hfits _ (mem_postorder_self _) _ hf)
    have hv : v.toNat ≤ 0x7fffffff := by omega
    have hlong : v.toInt64 = m := by
      refine Int64.toInt_inj.1 ?_
      rw [toInt_toInt64 (Nat.le_trans hv (by decide)), hm]
    refine ⟨.int hv, rfl, ?_⟩
    rw [evalIn, ← toInt32_literal, hlong]
    rfl
  | double => cases hi
  | bool =>
    cases hc
    exact ⟨.bool, rfl, rfl⟩
  | @unary p op a e ha h ih =>
    obtain ⟨hop, rfl⟩ := checkUnary_ok h
    obtain ⟨b, hb, hc⟩ := fold_unary_ok hc
    obtain ⟨hca, hfree, hval⟩ := ih hi hb fun d hd => hfits d (List.mem_append_left _ hd)
    refine ⟨.unary hca hop, hfree, ?_⟩
    rw [ha.type_eq hb] at hop
    rw [evalIn, hval]
    exact Constant.unary_val F hop (ha.not_double hi hb) hc
  | @binary p op l r e hl hr h ihl ihr =>
    obtain ⟨s, hop, rfl⟩ := checkBinary_ok h
    obtain ⟨hdiv, hil, hir⟩ := isIntegral_binary.1 hi
    obtain ⟨a, b, ha, hb, hc⟩ := fold_binary_ok hc
    have hfitsl : ∀ d ∈ l.postorder, ∀ a, d.fold = .ok a → a.Fits := fun d hd =>
      hfits d (List.mem_append_left _ (List.mem_append_left _ hd))
    have hfitsr : ∀ d ∈ r.postorder, ∀ a, d.fold = .ok a → a.Fits := fun d hd =>
      hfits d (List.mem_append_left _ (List.mem_append_right _ hd))
    obtain ⟨hcl, hfreel, hvall⟩ := ihl hil ha hfitsl
    obtain ⟨hcr, hfreer, hvalr⟩ := ihr hir hb hfitsr
    refine ⟨.binary hcl hcr hop, ?_, ?_⟩
    · rw [callFree, hfreel, hfreer, Bool.and_self]
    · rw [hl.type_eq ha, hr.type_eq hb] at hop
      rw [evalIn, hvall, hvalr]
      exact Constant.binary_val F hdiv hop (hl.not_double hil ha) (hr.not_double hir hb)
        (hfitsl l (mem_postorder_self l) a ha) (hfitsr r (mem_postorder_self r) b hb) hc

/-- The code for an expression of integers and truth values leaves the constant that the expression
is folded to, if all integers on the way are numbers of 32 bits. -/
theorem fold_computes (h : e.Constructed) (hi : e.isIntegral = true) (hc : e.fold = .ok c)
    (hfits : ∀ d ∈ e.postorder, ∀ a, d.fold = .ok a → a.Fits) (F : Floats) (P : Ir.Program)
    (k : Nat) (C : Ir.Config) (g : Lowering.Generator) :
    Lowering.Computes F P k C g (Lowering.value e) c.image := by
  -- literals need no variables, so any configuration will do
  let Γ : Context := ⟨fun _ _ _ => False, fun _ _ _ => False⟩
  let D : Layout := fun _ _ => none
  let ρ : Stores := fun _ _ => none
  have hΓ : D.Covers Γ := ⟨nofun, nofun⟩
  have hρ : ρ.Fits D := nofun
  have hC : C.Carries k D ρ := ⟨nofun, nofun⟩
  obtain ⟨hchecked, hfree, hval⟩ := h.evaluates hi hc hfits Γ F ρ
  obtain ⟨v, code, ν, hcode, hm⟩ := (Lowering.lowers_of_checked hchecked).emits_value g
  have hagrees := hcode.evaluates (F := F) (p := P) hΓ hρ hchecked hfree C hC
  rw [hval] at hagrees
  rw [← Constant.val_image (hfits e (mem_postorder_self e) c hc)]
  exact .ofAgrees hm hagrees

/-- The remainder of a negative number, and the bits of it. -/
theorem fold_computes_remainder :
    let e : Expr := .binary ⟨1, 10⟩ .integer .and
      (.binary ⟨1, 4⟩ .integer .mod (.unary ⟨1, 1⟩ .integer .minus (.int ⟨1, 2⟩ 7)) (.int ⟨1, 8⟩ 2))
      (.unary ⟨1, 14⟩ .integer .not (.int ⟨1, 18⟩ 5))
    e.Constructed ∧ e.isIntegral = true ∧ e.fold = .ok (.int (-6)) ∧
    (∀ d ∈ e.postorder, ∀ a, d.fold = .ok a → a.Fits) ∧
    ∀ F P k C g, Lowering.Computes F P k C g (Lowering.value e) (Constant.int (-6)).image := by
  intro e
  have he : e.Constructed :=
    .of_result (.of_result (.of_accepts .int rfl) .int rfl) (.of_accepts .int rfl) rfl
  have hc : e.fold = .ok (.int (-6)) := rfl
  have hfits : ∀ d ∈ e.postorder, ∀ a, d.fold = .ok a → a.Fits := by
    intro d hd a ha
    simp only [e, postorder, List.cons_append, List.nil_append, List.mem_cons, List.not_mem_nil,
      or_false] at hd
    rcases hd with rfl | rfl | rfl | rfl | rfl | rfl | rfl <;> cases ha <;> rfl
  exact ⟨he, rfl, hc, hfits, he.fold_computes rfl hc hfits⟩

end Constructed

end Expr

end MiniPascal
