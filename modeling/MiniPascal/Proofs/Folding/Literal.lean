import MiniPascal.Proofs.Folding.Typing

/-! A folded constant is kept as a literal, which folding evaluates and a bound of an array reads
off its form. -/

namespace MiniPascal

namespace Expr

variable {e : Expr} {n : Int64}

/-- Whether the expression is an integer literal, possibly with signs in front. -/
def isSigned : Expr → Bool
  | int .. => true
  | unary _ _ .minus a | unary _ _ .plus a => a.isSigned
  | _ => false

theorem isSigned_of_asConstant (h : e.asConstant = some n) : e.isSigned = true := by
  fun_induction asConstant e generalizing n with
  | case1 => rfl
  | case2 p t a ih =>
    obtain ⟨m, hm, -⟩ := Option.map_eq_some_iff.1 h
    exact ih hm
  | case3 p t a ih => exact ih h
  | case4 => cases h

/-- A literal with signs that can be folded is an integer, and the same is read off its form. -/
theorem asConstant_of_fold (hs : e.isSigned = true) {c : Constant} (h : e.fold = .ok c) :
    ∃ n, c = .int n ∧ e.asConstant = some n := by
  fun_induction isSigned e generalizing c with
  | case1 p v =>
    rw [fold] at h
    split at h
    · cases h
      exact ⟨_, rfl, ‹_›⟩
    · cases h
  | case2 p t a ih =>
    cases ha : a.fold with
    | error x =>
      rw [fold_unary_error ha] at h
      cases h
    | ok d =>
      obtain ⟨m, rfl, hm⟩ := ih hs ha
      -- the operand is not the least number, so its negation is exact
      have hne := (fold_of_asConstant hm).1
      rw [fold_unary ha] at h
      change Constant.checked (-m.toInt) p = .ok c at h
      rw [← toInt_neg hne, Constant.checked_toInt] at h
      cases h
      refine ⟨-m, rfl, ?_⟩
      rw [asConstant, hm, Option.map_some]
  | case3 p t a ih =>
    cases ha : a.fold with
    | error x =>
      rw [fold_unary_error ha] at h
      cases h
    | ok d =>
      rw [fold_unary ha] at h
      cases h
      exact ih hs ha
  | case4 => cases hs

/-- The least number is kept as the negation of a literal that is too large for 64 bits with a
sign. -/
theorem literal_least (p : Position) :
    (ofConstant (.int .minValue) p).fold = .error ⟨p, .constantOverflow⟩ ∧
      (ofConstant (.int .minValue) p).asConstant = none := ⟨rfl, rfl⟩

/-- The literal of a number of 64 bits is folded to the number, and the number is read off its form,
unless it is the least one: that one's literal overflows. A number is read off the form of just
those literals with signs that are folded to it. -/
theorem literal_survives (n : Int64) (p : Position) :
    (if n = .minValue then
      (ofConstant (.int n) p).fold = .error ⟨p, .constantOverflow⟩ ∧
        (ofConstant (.int n) p).asConstant = none
    else
      (ofConstant (.int n) p).fold = .ok (.int n) ∧
        (ofConstant (.int n) p).asConstant = some n) ∧
    ∀ (e : Expr) (m : Int64),
      e.asConstant = some m ↔ e.isSigned = true ∧ e.fold = .ok (.int m) := by
  refine ⟨?_, fun e m => ⟨fun h => ?_, ?_⟩⟩
  · by_cases hn : n = .minValue
    · subst hn
      rw [if_pos rfl]
      exact literal_least p
    · rw [if_neg hn]
      have hread := asConstant_literal hn p
      exact ⟨(fold_of_asConstant hread).2, hread⟩
  · exact ⟨isSigned_of_asConstant h, (fold_of_asConstant h).2⟩
  · rintro ⟨hs, hfold⟩
    obtain ⟨k, hk, hread⟩ := asConstant_of_fold hs hfold
    cases hk
    exact hread

/-- The number next to the least one survives, and it is what stands behind a plus and a minus. -/
theorem literal_survives_greatest :
    let n : Int64 := -9223372036854775807
    let e : Expr := .unary ⟨1, 1⟩ .integer .plus
      (.unary ⟨1, 2⟩ .integer .minus (.int ⟨1, 3⟩ 9223372036854775807))
    n ≠ .minValue ∧ e.asConstant = some n ∧
    ((ofConstant (.int n) ⟨1, 4⟩).fold = .ok (.int n) ∧
      (ofConstant (.int n) ⟨1, 4⟩).asConstant = some n) ∧
    e.fold = .ok (.int n) := by
  intro n e
  have hn : n ≠ .minValue := by decide
  have he : e.asConstant = some n := rfl
  obtain ⟨hliteral, hread⟩ := literal_survives n ⟨1, 4⟩
  rw [if_neg hn] at hliteral
  exact ⟨hn, he, hliteral, ((hread e n).1 he).2⟩

/-- Folding a difference reaches the least number, whose literal is neither folded nor read back. -/
theorem literal_lost :
    (Expr.binary ⟨1, 22⟩ .integer .sub
      (.unary ⟨1, 1⟩ .integer .minus (.int ⟨1, 2⟩ 9223372036854775807)) (.int ⟨1, 24⟩ 1)).fold =
        .ok (.int .minValue) ∧
    (ofConstant (.int .minValue) ⟨1, 1⟩).fold = .error ⟨⟨1, 1⟩, .constantOverflow⟩ ∧
    (ofConstant (.int .minValue) ⟨1, 1⟩).asConstant = none ∧
    ¬∀ (n : Int64) (p : Position), (ofConstant (.int n) p).fold = .ok (.int n) ∧
      (ofConstant (.int n) p).asConstant = some n := by
  refine ⟨rfl, rfl, rfl, fun h => ?_⟩
  obtain ⟨-, hread⟩ := h .minValue ⟨1, 1⟩
  cases hread

end Expr

end MiniPascal
