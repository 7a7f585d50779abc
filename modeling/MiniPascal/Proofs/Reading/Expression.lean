import MiniPascal.Proofs.Reading.Ensures

namespace MiniPascal.Grammar

open Cursor

theorem literal_checked {Γ : Context} (token : Token) :
    Read.Ensures (literal token) fun e => e.Checked Γ := by
  unfold literal
  split
  · split
    · rename_i n _ hn
      have hlt : n ≤ 0x80000000 := Nat.le_trans hn (by decide)
      exact .ok (.int (by rwa [Expr.toNat_ofNat_word hlt]))
    · exact .error
  · exact .ok .double
  · exact .ok .double
  · exact .error

theorem number_checked {Γ : Context} {c : Cursor} (hc : c.Spelled) :
    Read.Ensures (number c) fun t => t.value.Checked Γ ∧ t.rest.Spelled := by
  unfold number
  refine .bind (expect_spelled hc _) ?_
  rintro ⟨token, c₁, h₁⟩ ⟨_, _, hc₁⟩
  exact .bind (literal_checked token) fun e he => .pure ⟨he, hc₁⟩

theorem passable_of_zip {args : List Expr} {params : List Ty}
    (hl : args.length = params.length)
    (h : ∀ a ∈ args.zip params, Typing.assignable a.2 a.1.type = true) : Passable args params :=
  List.forall₂_iff_zip.2 ⟨hl, fun hab => h _ hab⟩

theorem checkAssignable_ensures (t : Ty) (e : Expr) (context : String) :
    Read.Ensures (Read.checked (Typing.checkAssignable t e context)) fun _ =>
      Typing.assignable t e.type = true := by
  intro u hu
  have h := Read.checked_eq_ok.1 hu
  unfold Typing.checkAssignable at h
  split at h
  · assumption
  · cases h

theorem forM_ensures {α : Type} {f : α → Read Unit} {P : α → Prop} (l : List α)
    (h : ∀ a, Read.Ensures (f a) fun _ => P a) : Read.Ensures (l.forM f) fun _ => ∀ a ∈ l, P a := by
  induction l with
  | nil => exact .pure (by simp)
  | cons a l ih =>
    exact .bind (h a) fun _ ha => ih.mono fun _ hl => List.forall_mem_cons.2 ⟨ha, hl⟩

theorem checkArguments_ensures (name : Located Name) (params : List Ty) (args : List Expr) :
    Read.Ensures (checkArguments name params args) fun _ => Passable args params := by
  unfold checkArguments
  split
  · rename_i hl
    have h := forM_ensures (args.zip params) fun a =>
      checkAssignable_ensures a.2 a.1 "as argument"
    exact h.mono fun _ h => passable_of_zip hl h
  · exact .error

theorem lookupRoutine_context {s : Scopes} {n : Located Name} {r : Routine}
    (h : s.lookupRoutine n = .ok r) : s.context.routine r.symbol r.paramTypes r.returns :=
  ⟨n, r, h, rfl, rfl, rfl⟩

section

-- the rules call each other, and some use what the scopes hold only through another rule
set_option linter.unusedSectionVars false

variable {s : Scopes} (hs : s.Sound)
include hs

mutual

/-- What is read as an expression obeys the rules. -/
theorem expression_checked {c : Cursor} (hc : c.Spelled) :
    Read.Ensures (expression s c) fun t => t.value.Checked s.context ∧ t.rest.Spelled := by
  unfold expression
  exact operation_checked .relational hc
termination_by 16 * c.size + 11
decreasing_by simp only [Precedence.height]; omega

theorem operand_checked (p : Precedence) {c : Cursor} (hc : c.Spelled) :
    Read.Ensures (operand s p c) fun t => t.value.Checked s.context ∧ t.rest.Spelled := by
  unfold operand
  cases p with
  | relational => exact operation_checked .additive hc
  | additive => exact operation_checked .multiplicative hc
  | multiplicative => exact unary_checked hc
termination_by 16 * c.size + 2 * p.height + 3
decreasing_by all_goals simp only [Precedence.height]; omega

theorem operation_checked (p : Precedence) {c : Cursor} (hc : c.Spelled) :
    Read.Ensures (operation s p c) fun t => t.value.Checked s.context ∧ t.rest.Spelled := by
  unfold operation
  refine .bind (operand_checked p hc) ?_
  rintro ⟨left, c₁, h₁⟩ ⟨hl, hc₁⟩
  refine .bind (operations_checked p hl hc₁) ?_
  rintro ⟨e, c₂, h₂⟩ he
  exact .pure he
termination_by 16 * c.size + 2 * p.height + 4

theorem operations_checked (p : Precedence) {left : Expr} (hl : left.Checked s.context)
    {c : Cursor} (hc : c.Spelled) :
    Read.Ensures (operations s p left c) fun t =>
      t.value.Checked s.context ∧ t.rest.Spelled := by
  unfold operations
  refine .bind (accept_spelled hc _) fun o ho => ?_
  rcases o with _ | ⟨⟨op, token⟩, c₁, h₁⟩
  · exact .pure ⟨hl, hc⟩
  · refine .bind (operand_checked p (ho _ rfl).2.2) ?_
    rintro ⟨right, c₂, h₂⟩ ⟨hr, hc₂⟩
    refine .bind (Read.ensures_checked _) fun e he => ?_
    refine .bind (operations_checked p (Expr.checkBinary_checked hl hr he) hc₂) ?_
    rintro ⟨e, c₃, h₃⟩ he
    exact .pure he
termination_by 16 * c.size
decreasing_by all_goals have := p.height_le; omega

theorem unary_checked {c : Cursor} (hc : c.Spelled) :
    Read.Ensures (unary s c) fun t => t.value.Checked s.context ∧ t.rest.Spelled := by
  unfold unary
  refine .bind (accept_spelled hc _) fun o ho => ?_
  rcases o with _ | ⟨⟨op, token⟩, c₁, h₁⟩
  · exact primary_checked hc
  · refine .bind (unary_checked (ho _ rfl).2.2) ?_
    rintro ⟨a, c₂, h₂⟩ ⟨ha, hc₂⟩
    refine .bind (Read.ensures_checked _) fun e he => ?_
    exact .pure ⟨Expr.checkUnary_checked ha he, hc₂⟩
termination_by 16 * c.size + 4

theorem primary_checked {c : Cursor} (hc : c.Spelled) :
    Read.Ensures (primary s c) fun t => t.value.Checked s.context ∧ t.rest.Spelled := by
  unfold primary
  split
  · exact number_checked hc
  · exact number_checked hc
  · split
    · refine .bind (keyword_spelled hc _) ?_
      rintro ⟨token, c₁, h₁⟩ hc₁
      refine .pure ⟨.bool, hc₁⟩
    · exact unexpected_ensures
  · refine .bind (symbol_spelled hc _) ?_
    rintro ⟨token, c₁, h₁⟩ hc₁
    refine .bind (expression_checked hc₁) ?_
    rintro ⟨e, c₂, h₂⟩ ⟨he, hc₂⟩
    refine .bind (symbol_spelled hc₂ _) ?_
    rintro ⟨_, c₃, h₃⟩ hc₃
    exact .pure ⟨he, hc₃⟩
  · refine .bind (identifier_spelled hc) ?_
    rintro ⟨name, c₁, h₁⟩ ⟨_, hc₁⟩
    refine .bind (named_checked name hc₁) ?_
    rintro ⟨e, c₂, h₂⟩ he
    exact .pure he
  · exact unexpected_ensures
termination_by 16 * c.size + 3

theorem named_checked (name : Located Name) {c : Cursor} (hc : c.Spelled) :
    Read.Ensures (named s name c) fun t => t.value.Checked s.context ∧ t.rest.Spelled := by
  unfold named
  split
  · exact callOf_checked name hc
  · refine .bind (Read.ensures_checked _) ?_
    rintro ⟨d, storage⟩ hd
    have hsound := hs.lookup hd
    rcases d with ⟨q, t⟩ | ⟨q, v⟩ | ⟨q, t⟩ | r
    · have hv : (Expr.var name.position t name.value storage).Checked s.context :=
        .var ⟨name.position, q, hd⟩ hsound
      exact (selectors_checked hv rfl hc).mono fun _ h => ⟨h.1, h.2.2⟩
    · obtain ⟨constant, q, hfits, rfl⟩ := hsound
      refine .bind (Read.ensures_checked _) fun k hk => ?_
      rw [Expr.fold_ofConstant hfits] at hk
      cases hk
      exact .pure ⟨Expr.ofConstant_checked hfits _, hc⟩
    · exact .error
    · exact callOf_checked name hc
termination_by 16 * c.size + 2

theorem callOf_checked (name : Located Name) {c : Cursor} (hc : c.Spelled) :
    Read.Ensures (callOf s name c) fun t => t.value.Checked s.context ∧ t.rest.Spelled := by
  unfold callOf
  refine .bind (Read.ensures_checked _) fun r hr => ?_
  split
  · exact .error
  · rename_i t ht
    refine .bind (arguments_checked name r.paramTypes hc) ?_
    rintro ⟨args, c₁, h₁⟩ ⟨ha, hp, hc₁⟩
    exact .pure ⟨.call (ht ▸ lookupRoutine_context hr) ha hp, hc₁⟩
termination_by 16 * c.size + 1

theorem arguments_checked (name : Located Name) (params : List Ty) {c : Cursor} (hc : c.Spelled) :
    Read.Ensures (arguments s name params c) fun t =>
      (∀ e ∈ t.value, e.Checked s.context) ∧ Passable t.value params ∧ t.rest.Spelled := by
  unfold arguments
  refine .bind (acceptSymbol_spelled hc _) fun o ho => ?_
  rcases o with _ | ⟨_, c₁, h₁⟩
  · exact .bind (checkArguments_ensures _ _ _) fun _ hp => .pure ⟨nofun, hp, hc⟩
  · have hc₁ := ho _ rfl
    dsimp only
    split
    · refine .bind (symbol_spelled hc₁ _) ?_
      rintro ⟨_, c₂, h₂⟩ hc₂
      exact .bind (checkArguments_ensures _ _ _) fun _ hp => .pure ⟨nofun, hp, hc₂⟩
    · refine .bind (expressions_checked hc₁) ?_
      rintro ⟨args, c₂, h₂⟩ ⟨ha, hc₂⟩
      refine .bind (symbol_spelled hc₂ _) ?_
      rintro ⟨_, c₃, h₃⟩ hc₃
      exact .bind (checkArguments_ensures _ _ _) fun _ hp => .pure ⟨ha, hp, hc₃⟩
termination_by 16 * c.size

theorem expressions_checked {c : Cursor} (hc : c.Spelled) :
    Read.Ensures (expressions s c) fun t =>
      (∀ e ∈ t.value, e.Checked s.context) ∧ t.rest.Spelled := by
  unfold expressions
  refine .bind (expression_checked hc) ?_
  rintro ⟨e, c₁, h₁⟩ ⟨he, hc₁⟩
  refine .bind (acceptSymbol_spelled hc₁ _) fun o ho => ?_
  rcases o with _ | ⟨_, c₂, h₂⟩
  · exact .pure ⟨List.forall_mem_singleton.2 he, hc₁⟩
  · refine .bind (expressions_checked (ho _ rfl)) ?_
    rintro ⟨es, c₃, h₃⟩ ⟨hes, hc₃⟩
    exact .pure ⟨List.forall_mem_cons.2 ⟨he, hes⟩, hc₃⟩
termination_by 16 * c.size + 12

theorem selectors_checked {e : Expr} (he : e.Checked s.context) (hd : e.isDesignator = true)
    {c : Cursor} (hc : c.Spelled) :
    Read.Ensures (selectors s e c) fun t =>
      t.value.Checked s.context ∧ t.value.isDesignator = true ∧ t.rest.Spelled := by
  unfold selectors
  refine .bind (acceptSymbol_spelled hc _) fun o ho => ?_
  rcases o with _ | ⟨token, c₁, h₁⟩
  · dsimp only
    split
    · refine .bind (acceptSymbol_spelled hc _) fun o ho => ?_
      rcases o with _ | ⟨token, c₁, h₁⟩
      · exact .pure ⟨he, hd, hc⟩
      · refine .bind (identifier_spelled (ho _ rfl)) ?_
        rintro ⟨name, c₂, h₂⟩ ⟨_, hc₂⟩
        refine .bind (Read.ensures_checked _) fun f hf => ?_
        obtain ⟨hf, hfd⟩ := Expr.checkField_checked he hd hf
        refine .bind (selectors_checked hf hfd hc₂) ?_
        rintro ⟨e, c₃, h₃⟩ he
        exact .pure he
    · exact .pure ⟨he, hd, hc⟩
  · refine .bind (indices_checked he hd token.position (ho _ rfl)) ?_
    rintro ⟨a, c₂, h₂⟩ ⟨ha, had, hc₂⟩
    refine .bind (symbol_spelled hc₂ _) ?_
    rintro ⟨_, c₃, h₃⟩ hc₃
    refine .bind (selectors_checked ha had hc₃) ?_
    rintro ⟨e, c₄, h₄⟩ he
    exact .pure he
termination_by 16 * c.size

theorem indices_checked {e : Expr} (he : e.Checked s.context) (hd : e.isDesignator = true)
    (p : Position) {c : Cursor} (hc : c.Spelled) :
    Read.Ensures (indices s e p c) fun t =>
      t.value.Checked s.context ∧ t.value.isDesignator = true ∧ t.rest.Spelled := by
  unfold indices
  refine .bind (expression_checked hc) ?_
  rintro ⟨idx, c₁, h₁⟩ ⟨hi, hc₁⟩
  refine .bind (Read.ensures_checked _) fun a ha => ?_
  obtain ⟨ha, had⟩ := Expr.checkIndex_checked he hd hi ha
  refine .bind (acceptSymbol_spelled hc₁ _) fun o ho => ?_
  rcases o with _ | ⟨token, c₂, h₂⟩
  · exact .pure ⟨ha, had, hc₁⟩
  · refine .bind (indices_checked ha had token.position (ho _ rfl)) ?_
    rintro ⟨e, c₃, h₃⟩ he
    exact .pure he
termination_by 16 * c.size + 12

end

end

end MiniPascal.Grammar
