import MiniPascal.Grammar.Expression
import MiniPascal.Proofs.Recoding.Cursor

namespace MiniPascal

open Grammar

namespace Recoding

variable (ρ : Recoding)

theorem reject_recodes {α β : Type} {f : α → β} {p : Position} {e e' : SemanticError}
    (h : e' = ρ.semanticError e) : ρ.Recodes f (reject p e) (reject (ρ.position p) e') := by
  subst h
  exact .error rfl

theorem literal_token {t : Token} (h : t.kind = .integer ∨ t.kind = .double) :
    ρ.Recodes ρ.expr (literal t) (literal (ρ.token t)) := by
  have hend : t.kind ≠ .endOfFile := by rcases h with h | h <;> simp [h]
  have hstring : t.kind ≠ .string := by rcases h with h | h <;> simp [h]
  have hliteral : (ρ.token t).literal = t.literal := if_neg hstring
  have htext := ρ.text_token hend
  simp only [literal, hliteral]
  split
  · split
    · exact .ok (by simp only [expr]; rfl)
    · refine .error ?_
      simp only [located, fault, lexError, htext]
      rfl
  · exact .ok (by simp only [expr]; rfl)
  · exact .ok (by simp only [expr]; rfl)
  · refine .error ?_
    simp only [located, fault, describe_token]
    rfl

theorem number_cursor {c : Cursor} (h : c.current.kind = .integer ∨ c.current.kind = .double) :
    ρ.Recodes (ρ.taken ρ.expr) (number c) (number (ρ.cursor c)) := by
  unfold number
  refine .bind_of_ok (ρ.expect_cursor c _) ?_
  rintro ⟨t, c₁, h₁⟩ ht
  obtain ⟨hvalue, -, -⟩ := Cursor.expect_value ht
  obtain rfl : t = c.current := hvalue
  refine .bind (ρ.literal_token h) fun e => ?_
  exact .pure rfl

theorem forM_recodes {α β : Type} {g : α → β} {f : α → Read Unit} {f' : β → Read Unit} (l : List α)
    (h : ∀ a ∈ l, ρ.Recodes id (f a) (f' (g a))) :
    ρ.Recodes id (l.forM f) ((l.map g).forM f') := by
  induction l with
  | nil => exact .pure rfl
  | cons a l ih =>
    obtain ⟨ha, hl⟩ := List.forall_mem_cons.1 h
    exact .bind ha fun _ => ih hl

theorem checkArguments_recodes (n : Located Name) (params : List Ty) (args : List Expr) :
    ρ.Recodes id (checkArguments n params args)
      (checkArguments (ρ.located ρ.name n) (params.map ρ.ty) (args.map ρ.expr)) := by
  simp only [checkArguments, List.length_map]
  split
  · rw [List.zip_map]
    refine ρ.forM_recodes _ fun a _ => ?_
    exact .checked (ρ.checkAssignable_expr a.2 a.1 _)
  · exact .error rfl

variable (s : Scopes)

-- The measures are those of the rules, whose calls are the induction hypotheses.
mutual

theorem expression_cursor (c : Cursor) :
    ρ.Recodes (ρ.taken ρ.expr) (expression s c) (expression (ρ.scopes s) (ρ.cursor c)) := by
  rw [expression, expression.eq_def (ρ.scopes s)]
  exact operation_cursor .relational c
termination_by 16 * c.size + 11
decreasing_by simp only [Precedence.height]; omega

theorem operand_cursor (p : Precedence) (c : Cursor) :
    ρ.Recodes (ρ.taken ρ.expr) (operand s p c) (operand (ρ.scopes s) p (ρ.cursor c)) := by
  rw [operand.eq_def s, operand.eq_def (ρ.scopes s)]
  cases p with
  | relational => exact operation_cursor .additive c
  | additive => exact operation_cursor .multiplicative c
  | multiplicative => exact unary_cursor c
termination_by 16 * c.size + 2 * p.height + 3
decreasing_by all_goals simp only [Precedence.height]; omega

theorem operation_cursor (p : Precedence) (c : Cursor) :
    ρ.Recodes (ρ.taken ρ.expr) (operation s p c) (operation (ρ.scopes s) p (ρ.cursor c)) := by
  rw [operation.eq_def s, operation.eq_def (ρ.scopes s)]
  refine .bind (operand_cursor p c) ?_
  rintro ⟨left, c₁, h₁⟩
  refine .bind (operations_cursor p left c₁) ?_
  rintro ⟨e, c₂, h₂⟩
  exact .pure rfl
termination_by 16 * c.size + 2 * p.height + 4

theorem operations_cursor (p : Precedence) (left : Expr) (c : Cursor) :
    ρ.Recodes (ρ.passed ρ.expr) (operations s p left c)
      (operations (ρ.scopes s) p (ρ.expr left) (ρ.cursor c)) := by
  rw [operations.eq_def s, operations.eq_def (ρ.scopes s)]
  refine .bind (ρ.accept_cursor c _) ?_
  rintro (_ | ⟨⟨op, t⟩, c₁, h₁⟩)
  · exact .pure rfl
  · refine .bind (operand_cursor p c₁) ?_
    rintro ⟨right, c₂, h₂⟩
    refine .bind (.checked (ρ.checkBinary_expr op left right t.position)) fun e => ?_
    refine .bind (operations_cursor p e c₂) ?_
    rintro ⟨e, c₃, h₃⟩
    exact .pure rfl
termination_by 16 * c.size
decreasing_by all_goals have := p.height_le; omega

theorem unary_cursor (c : Cursor) :
    ρ.Recodes (ρ.taken ρ.expr) (unary s c) (unary (ρ.scopes s) (ρ.cursor c)) := by
  rw [unary.eq_def s, unary.eq_def (ρ.scopes s)]
  refine .bind (ρ.accept_cursor c _) ?_
  rintro (_ | ⟨⟨op, t⟩, c₁, h₁⟩)
  · exact primary_cursor c
  · refine .bind (unary_cursor c₁) ?_
    rintro ⟨a, c₂, h₂⟩
    refine .bind (.checked (ρ.checkUnary_expr op a t.position)) fun e => ?_
    exact .pure rfl
termination_by 16 * c.size + 4

theorem primary_cursor (c : Cursor) :
    ρ.Recodes (ρ.taken ρ.expr) (primary s c) (primary (ρ.scopes s) (ρ.cursor c)) := by
  have hnumber := ρ.number_cursor (c := c)
  rw [primary.eq_def s, primary.eq_def (ρ.scopes s), kind_cursor]
  split
  · rename_i hkind
    exact hnumber (.inl hkind)
  · rename_i hkind
    exact hnumber (.inr hkind)
  · split
    · refine .bind (ρ.keyword_cursor c _) ?_
      rintro ⟨t, c₁, h₁⟩
      exact .pure rfl
    · exact ρ.unexpected_cursor c
  · refine .bind (ρ.symbol_cursor c _) ?_
    rintro ⟨_, c₁, h₁⟩
    refine .bind (expression_cursor c₁) ?_
    rintro ⟨e, c₂, h₂⟩
    refine .bind (ρ.symbol_cursor c₂ _) ?_
    rintro ⟨_, c₃, h₃⟩
    exact .pure rfl
  · refine .bind (ρ.identifier_cursor c) ?_
    rintro ⟨n, c₁, h₁⟩
    refine .bind (named_cursor n c₁) ?_
    rintro ⟨e, c₂, h₂⟩
    exact .pure rfl
  · exact ρ.unexpected_cursor c
termination_by 16 * c.size + 3

theorem named_cursor (n : Located Name) (c : Cursor) :
    ρ.Recodes (ρ.passed ρ.expr) (named s n c)
      (named (ρ.scopes s) (ρ.located ρ.name n) (ρ.cursor c)) := by
  rw [named.eq_def s, named.eq_def (ρ.scopes s), sees_cursor]
  split
  · exact callOf_cursor n c
  · refine .bind (.checked (ρ.lookup_scopes s n)) ?_
    rintro ⟨d, storage⟩
    cases d with
    | var q t =>
      have hselectors := selectors_cursor (.var n.position t n.value storage) c
      simp only [expr] at hselectors
      simp only [resolved, declaration]
      exact hselectors
    | const q v =>
      simp only [resolved, declaration]
      refine .bind (.checked (ρ.fold_expr v)) fun k => ?_
      exact .pure_passed (ρ.ofConstant_position _ _) rfl
    | type q t =>
      refine .error ?_
      simp only [located, fault, text_quoted]
      rfl
    | routine r =>
      exact callOf_cursor n c
termination_by 16 * c.size + 2

theorem callOf_cursor (n : Located Name) (c : Cursor) :
    ρ.Recodes (ρ.passed ρ.expr) (callOf s n c)
      (callOf (ρ.scopes s) (ρ.located ρ.name n) (ρ.cursor c)) := by
  rw [callOf.eq_def s, callOf.eq_def (ρ.scopes s)]
  refine .bind (.checked (ρ.lookupRoutine_scopes s n)) fun r => ?_
  rw [returns_routine]
  cases r.returns with
  | none => exact ρ.reject_recodes rfl
  | some t =>
    refine .bind (ρ.paramTypes_routine r ▸ arguments_cursor n r.paramTypes c) ?_
    rintro ⟨args, c₁, h₁⟩
    refine .pure_passed ?_ rfl
    simp only [expr, symbol_routine, paramTypes_routine, exprs_eq_map, tys_eq_map]
    rfl
termination_by 16 * c.size + 1

theorem arguments_cursor (n : Located Name) (params : List Ty) (c : Cursor) :
    ρ.Recodes (ρ.passed (List.map ρ.expr)) (arguments s n params c)
      (arguments (ρ.scopes s) (ρ.located ρ.name n) (params.map ρ.ty) (ρ.cursor c)) := by
  rw [arguments.eq_def s, arguments.eq_def (ρ.scopes s)]
  refine .bind (ρ.acceptSymbol_cursor c _) ?_
  rintro (_ | ⟨_, c₁, h₁⟩)
  · exact .bind (ρ.checkArguments_recodes n params []) fun _ => .pure rfl
  · dsimp only [Option.map_some, taken]
    rw [sees_cursor]
    split
    · refine .bind (ρ.symbol_cursor c₁ _) ?_
      rintro ⟨_, c₂, h₂⟩
      exact .bind (ρ.checkArguments_recodes n params []) fun _ => .pure rfl
    · refine .bind (expressions_cursor c₁) ?_
      rintro ⟨args, c₂, h₂⟩
      refine .bind (ρ.symbol_cursor c₂ _) ?_
      rintro ⟨_, c₃, h₃⟩
      exact .bind (ρ.checkArguments_recodes n params args) fun _ => .pure rfl
termination_by 16 * c.size

theorem expressions_cursor (c : Cursor) :
    ρ.Recodes (ρ.taken (List.map ρ.expr)) (expressions s c)
      (expressions (ρ.scopes s) (ρ.cursor c)) := by
  rw [expressions.eq_def s, expressions.eq_def (ρ.scopes s)]
  refine .bind (expression_cursor c) ?_
  rintro ⟨e, c₁, h₁⟩
  refine .bind (ρ.acceptSymbol_cursor c₁ _) ?_
  rintro (_ | ⟨_, c₂, h₂⟩)
  · exact .pure rfl
  · refine .bind (expressions_cursor c₂) ?_
    rintro ⟨es, c₃, h₃⟩
    exact .pure rfl
termination_by 16 * c.size + 12

theorem selectors_cursor (e : Expr) (c : Cursor) :
    ρ.Recodes (ρ.passed ρ.expr) (selectors s e c)
      (selectors (ρ.scopes s) (ρ.expr e) (ρ.cursor c)) := by
  rw [selectors.eq_def s, selectors.eq_def (ρ.scopes s)]
  refine .bind (ρ.acceptSymbol_cursor c _) ?_
  rintro (_ | ⟨t, c₁, h₁⟩)
  · dsimp only [Option.map_none]
    rw [type_expr, isRecord_ty]
    split
    · refine .bind (ρ.acceptSymbol_cursor c _) ?_
      rintro (_ | ⟨t, c₁, h₁⟩)
      · exact .pure rfl
      · refine .bind (ρ.identifier_cursor c₁) ?_
        rintro ⟨n, c₂, h₂⟩
        refine .bind (.checked (ρ.checkField_expr e n.value t.position)) fun e => ?_
        refine .bind (selectors_cursor e c₂) ?_
        rintro ⟨e, c₃, h₃⟩
        exact .pure rfl
    · exact .pure rfl
  · refine .bind (indices_cursor e t.position c₁) ?_
    rintro ⟨a, c₂, h₂⟩
    refine .bind (ρ.symbol_cursor c₂ _) ?_
    rintro ⟨_, c₃, h₃⟩
    refine .bind (selectors_cursor a c₃) ?_
    rintro ⟨e, c₄, h₄⟩
    exact .pure rfl
termination_by 16 * c.size

theorem indices_cursor (e : Expr) (p : Position) (c : Cursor) :
    ρ.Recodes (ρ.taken ρ.expr) (indices s e p c)
      (indices (ρ.scopes s) (ρ.expr e) (ρ.position p) (ρ.cursor c)) := by
  rw [indices.eq_def s, indices.eq_def (ρ.scopes s)]
  refine .bind (expression_cursor c) ?_
  rintro ⟨i, c₁, h₁⟩
  refine .bind (.checked (ρ.checkIndex_expr e i p)) fun a => ?_
  refine .bind (ρ.acceptSymbol_cursor c₁ _) ?_
  rintro (_ | ⟨t, c₂, h₂⟩)
  · exact .pure rfl
  · refine .bind (indices_cursor a t.position c₂) ?_
    rintro ⟨e, c₃, h₃⟩
    exact .pure rfl
termination_by 16 * c.size + 12

end

end Recoding

end MiniPascal
