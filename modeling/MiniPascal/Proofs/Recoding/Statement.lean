import MiniPascal.Grammar.Statement
import MiniPascal.Proofs.Recoding.TypeName

namespace MiniPascal

open Grammar

namespace Recoding

variable (ρ : Recoding) (s : Scopes)

theorem designator_cursor (n : Located Name) (c : Cursor) :
    ρ.Recodes (ρ.passed ρ.expr) (designator s n c)
      (designator (ρ.scopes s) (ρ.located ρ.name n) (ρ.cursor c)) := by
  unfold designator
  refine .bind (.checked (ρ.lookup_scopes s n)) ?_
  rintro ⟨d, storage⟩
  cases d with
  | var q t =>
    have hselectors := ρ.selectors_cursor s (.var n.position t n.value storage) c
    simp only [expr] at hselectors
    simp only [resolved, declaration]
    exact hselectors
  | const q e => exact ρ.reject_recodes rfl
  | type q t => exact ρ.reject_recodes rfl
  | routine r => exact ρ.reject_recodes rfl

theorem assignedValue_expr (op : Option BinOp) (target value : Expr) (p : Position) :
    ρ.Recodes ρ.expr (assignedValue op target value p)
      (assignedValue op (ρ.expr target) (ρ.expr value) (ρ.position p)) := by
  cases op with
  | none => exact .ok rfl
  | some op => exact .checked (ρ.checkBinary_expr op target value p)

theorem assignment_cursor (n : Located Name) (c : Cursor) :
    ρ.Recodes (ρ.passed ρ.stmt) (assignment s n c)
      (assignment (ρ.scopes s) (ρ.located ρ.name n) (ρ.cursor c)) := by
  unfold assignment
  refine .bind (ρ.designator_cursor s n c) ?_
  rintro ⟨target, c₁, h₁⟩
  refine .bind (ρ.accept_cursor c₁ _) ?_
  rintro (_ | ⟨⟨op, t⟩, c₂, h₂⟩)
  · exact ρ.missing_cursor c₁ _
  · refine .bind (ρ.expression_cursor s c₂) ?_
    rintro ⟨value, c₃, h₃⟩
    refine .bind (ρ.assignedValue_expr op target value t.position) fun value => ?_
    have hcheck := ρ.checkAssignable_expr target.type value "in assignment"
    rw [← type_expr] at hcheck
    refine .bind (.checked hcheck) fun _ => ?_
    exact .pure rfl

theorem callStatement_cursor (n : Located Name) (c : Cursor) :
    ρ.Recodes (ρ.passed ρ.stmt) (callStatement s n c)
      (callStatement (ρ.scopes s) (ρ.located ρ.name n) (ρ.cursor c)) := by
  unfold callStatement
  refine .bind (.checked (ρ.lookupRoutine_scopes s n)) fun r => ?_
  refine .bind (ρ.paramTypes_routine r ▸ ρ.arguments_cursor s n r.paramTypes c) ?_
  rintro ⟨args, c₁, h₁⟩
  refine .pure_passed ?_ rfl
  simp only [stmt, symbol_routine, returns_routine, paramTypes_routine, exprs_eq_map, tys_eq_map]
  rfl

theorem writeArg_cursor (c : Cursor) :
    ρ.Recodes (ρ.taken ρ.writeArg) (Grammar.writeArg s c)
      (Grammar.writeArg (ρ.scopes s) (ρ.cursor c)) := by
  unfold Grammar.writeArg
  rw [kind_cursor]
  split
  · refine .bind_of_ok (ρ.expect_cursor c _) ?_
    rintro ⟨t, c₁, h₁⟩ ht
    obtain ⟨hvalue, hkind, -⟩ := Cursor.expect_value ht
    obtain rfl : t = c.current := hvalue
    exact .pure_taken (congrArg WriteArg.text (ρ.value_token hkind)) rfl
  · refine .bind (ρ.expression_cursor s c) ?_
    rintro ⟨e, c₁, h₁⟩
    dsimp only [taken]
    rw [type_expr, scalar?_ty, position_expr]
    split
    · exact .pure rfl
    · exact ρ.reject_recodes rfl

theorem writeArgs_cursor (c : Cursor) :
    ρ.Recodes (ρ.taken (List.map ρ.writeArg)) (writeArgs s c)
      (writeArgs (ρ.scopes s) (ρ.cursor c)) := by
  rw [writeArgs, writeArgs.eq_def (ρ.scopes s)]
  refine .bind (ρ.writeArg_cursor s c) ?_
  rintro ⟨arg, c₁, h₁⟩
  refine .bind (ρ.acceptSymbol_cursor c₁ _) ?_
  rintro (_ | ⟨_, c₂, h₂⟩)
  · exact .pure rfl
  · refine .bind (writeArgs_cursor c₂) ?_
    rintro ⟨args, c₃, h₃⟩
    exact .pure rfl
termination_by c.size

theorem writeStatement_cursor (newline : Bool) (c : Cursor) :
    ρ.Recodes (ρ.passed ρ.stmt) (writeStatement s newline c)
      (writeStatement (ρ.scopes s) newline (ρ.cursor c)) := by
  have hnone : ρ.stmt (.write newline []) = .write newline [] := by simp [stmt]
  unfold writeStatement
  refine .bind (ρ.acceptSymbol_cursor c _) ?_
  rintro (_ | ⟨_, c₁, h₁⟩)
  · exact .pure_passed hnone.symm rfl
  · dsimp only [Option.map_some, taken]
    rw [sees_cursor]
    split
    · refine .bind (ρ.symbol_cursor c₁ _) ?_
      rintro ⟨_, c₂, h₂⟩
      exact .pure_passed hnone.symm rfl
    · refine .bind (ρ.writeArgs_cursor s c₁) ?_
      rintro ⟨args, c₂, h₂⟩
      refine .bind (ρ.symbol_cursor c₂ _) ?_
      rintro ⟨_, c₃, h₃⟩
      exact .pure rfl

theorem writes?_name (n : Name) : writes? (ρ.name n) = writes? n := by
  simp only [writes?, canonical_name]

theorem namedStatement_cursor (n : Located Name) (c : Cursor) :
    ρ.Recodes (ρ.passed ρ.stmt) (namedStatement s n c)
      (namedStatement (ρ.scopes s) (ρ.located ρ.name n) (ρ.cursor c)) := by
  unfold namedStatement
  have hwrites : writes? (ρ.located ρ.name n).value = writes? n.value := ρ.writes?_name n.value
  rw [lookup_scopes, hwrites, sees_cursor]
  have hother : ρ.Recodes (ρ.passed ρ.stmt)
      (if c.sees .openParen then callStatement s n c else Grammar.assignment s n c)
      (if c.sees .openParen then callStatement (ρ.scopes s) (ρ.located ρ.name n) (ρ.cursor c)
        else Grammar.assignment (ρ.scopes s) (ρ.located ρ.name n) (ρ.cursor c)) := by
    split
    · exact ρ.callStatement_cursor s n c
    · exact ρ.assignment_cursor s n c
  cases s.lookup n with
  | error e =>
    cases writes? n.value with
    | none => exact hother
    | some newline => exact ρ.writeStatement_cursor s newline c
  | ok found =>
    obtain ⟨d, storage⟩ := found
    cases d with
    | routine r => exact ρ.callStatement_cursor s n c
    | var q t => exact hother
    | const q e => exact hother
    | type q t => exact hother

theorem condition_cursor (c : Cursor) :
    ρ.Recodes (ρ.taken ρ.expr) (condition s c) (condition (ρ.scopes s) (ρ.cursor c)) := by
  unfold condition
  refine .bind (ρ.expression_cursor s c) ?_
  rintro ⟨e, c₁, h₁⟩
  exact .bind (.checked (ρ.checkCondition_expr e)) fun _ => .pure rfl

theorem loopLimit_cursor (context : String) (c : Cursor) :
    ρ.Recodes (ρ.taken ρ.expr) (loopLimit s context c)
      (loopLimit (ρ.scopes s) context (ρ.cursor c)) := by
  unfold loopLimit
  refine .bind (ρ.expression_cursor s c) ?_
  rintro ⟨e, c₁, h₁⟩
  have hcheck := ρ.checkAssignable_expr .integer e context
  rw [ty_scalar] at hcheck
  exact .bind (.checked hcheck) fun _ => .pure rfl

theorem loopCounter_cursor (c : Cursor) :
    ρ.Recodes (ρ.taken ρ.expr) (loopCounter s c) (loopCounter (ρ.scopes s) (ρ.cursor c)) := by
  unfold loopCounter
  refine .bind (ρ.identifier_cursor c) ?_
  rintro ⟨n, c₁, h₁⟩
  refine .bind (ρ.designator_cursor s n c₁) ?_
  rintro ⟨target, c₂, h₂⟩
  dsimp only [passed]
  rw [type_expr, isInteger_ty, position_expr]
  split
  · exact .pure rfl
  · exact ρ.reject_recodes rfl

theorem loopHead_cursor (c : Cursor) :
    ρ.Recodes (ρ.taken (Prod.map ρ.expr (Prod.map ρ.expr ρ.expr))) (loopHead s c)
      (loopHead (ρ.scopes s) (ρ.cursor c)) := by
  unfold loopHead
  refine .bind (ρ.loopCounter_cursor s c) ?_
  rintro ⟨target, c₁, h₁⟩
  refine .bind (ρ.symbol_cursor c₁ _) ?_
  rintro ⟨_, c₂, h₂⟩
  refine .bind (ρ.loopLimit_cursor s _ c₂) ?_
  rintro ⟨value, c₃, h₃⟩
  dsimp only [taken]
  rw [seesKeyword_cursor, position_cursor]
  split
  · exact ρ.reject_recodes rfl
  · refine .bind (ρ.keyword_cursor c₃ _) ?_
    rintro ⟨_, c₄, h₄⟩
    refine .bind (ρ.loopLimit_cursor s _ c₄) ?_
    rintro ⟨bound, c₅, h₅⟩
    exact .pure rfl

mutual

theorem statement_cursor (inLoop : Bool) (c : Cursor) :
    ρ.Recodes (ρ.passed (Option.map ρ.stmt)) (statement s inLoop c)
      (statement (ρ.scopes s) inLoop (ρ.cursor c)) := by
  rw [statement.eq_def s, statement.eq_def (ρ.scopes s), kind_cursor]
  split
  · -- a block
    refine .bind (compound_cursor inLoop c) ?_
    rintro ⟨ss, c₁, h₁⟩
    exact .pure_passed (congrArg some (ρ.stmt_block ss).symm) rfl
  · -- `if`
    refine .bind (ρ.keyword_cursor c _) ?_
    rintro ⟨_, c₁, h₁⟩
    refine .bind (ρ.condition_cursor s c₁) ?_
    rintro ⟨test, c₂, h₂⟩
    refine .bind (ρ.keyword_cursor c₂ _) ?_
    rintro ⟨_, c₃, h₃⟩
    refine .bind (body_cursor inLoop c₃) ?_
    rintro ⟨yes, c₄, h₄⟩
    refine .bind (ρ.acceptKeyword_cursor c₄ _) ?_
    rintro (_ | ⟨_, c₅, h₅⟩)
    · exact .pure rfl
    · refine .bind (body_cursor inLoop c₅) ?_
      rintro ⟨no, c₆, h₆⟩
      exact .pure rfl
  · -- `while`
    refine .bind (ρ.keyword_cursor c _) ?_
    rintro ⟨_, c₁, h₁⟩
    refine .bind (ρ.condition_cursor s c₁) ?_
    rintro ⟨test, c₂, h₂⟩
    refine .bind (ρ.keyword_cursor c₂ _) ?_
    rintro ⟨_, c₃, h₃⟩
    refine .bind (body_cursor true c₃) ?_
    rintro ⟨b, c₄, h₄⟩
    exact .pure rfl
  · -- `repeat`
    refine .bind (ρ.keyword_cursor c _) ?_
    rintro ⟨_, c₁, h₁⟩
    refine .bind (statements_cursor true c₁) ?_
    rintro ⟨ss, c₂, h₂⟩
    refine .bind (ρ.keyword_cursor c₂ _) ?_
    rintro ⟨_, c₃, h₃⟩
    refine .bind (ρ.condition_cursor s c₃) ?_
    rintro ⟨test, c₄, h₄⟩
    have hstmt : ρ.stmt (.repeatUntil (.block ss) test) =
        .repeatUntil (.block (ss.map ρ.stmt)) (ρ.expr test) := by rw [stmt, stmt_block]
    exact .pure_passed (congrArg some hstmt.symm) rfl
  · -- `for`
    refine .bind (ρ.keyword_cursor c _) ?_
    rintro ⟨t, c₁, h₁⟩
    refine .bind (ρ.loopHead_cursor s c₁) ?_
    rintro ⟨⟨target, value, bound⟩, c₂, h₂⟩
    refine .bind (ρ.keyword_cursor c₂ _) ?_
    rintro ⟨_, c₃, h₃⟩
    refine .bind (body_cursor true c₃) ?_
    rintro ⟨b, c₄, h₄⟩
    exact .pure rfl
  · -- a statement with a name in front
    refine .bind (ρ.identifier_cursor c) ?_
    rintro ⟨n, c₁, h₁⟩
    refine .bind (ρ.namedStatement_cursor s n c₁) ?_
    rintro ⟨st, c₂, h₂⟩
    exact .pure rfl
  · -- nothing, or `break` and `continue`
    refine .bind (ρ.accept_cursor c _) ?_
    rintro (_ | ⟨⟨kind, t⟩, c₁, h₁⟩)
    · exact .pure rfl
    · dsimp only [Option.map_some, taken, Prod.map]
      split
      · exact .pure_passed rfl rfl
      · exact ρ.reject_recodes rfl
termination_by 4 * c.size + 1

theorem body_cursor (inLoop : Bool) (c : Cursor) :
    ρ.Recodes (ρ.passed ρ.stmt) (body s inLoop c) (body (ρ.scopes s) inLoop (ρ.cursor c)) := by
  rw [body, body.eq_def (ρ.scopes s)]
  refine .bind (statement_cursor inLoop c) ?_
  rintro ⟨st, c₁, h₁⟩
  cases st with
  | none => exact .pure_passed rfl rfl
  | some st => exact .pure rfl
termination_by 4 * c.size + 2

theorem statements_cursor (inLoop : Bool) (c : Cursor) :
    ρ.Recodes (ρ.passed (List.map ρ.stmt)) (statements s inLoop c)
      (statements (ρ.scopes s) inLoop (ρ.cursor c)) := by
  rw [statements, statements.eq_def (ρ.scopes s)]
  refine .bind (statement_cursor inLoop c) ?_
  rintro ⟨st, c₁, h₁⟩
  refine .bind (ρ.acceptSymbol_cursor c₁ _) ?_
  rintro (_ | ⟨_, c₂, h₂⟩)
  · cases st <;> exact .pure rfl
  · refine .bind (statements_cursor inLoop c₂) ?_
    rintro ⟨ss, c₃, h₃⟩
    cases st <;> exact .pure rfl
termination_by 4 * c.size + 2

theorem compound_cursor (inLoop : Bool) (c : Cursor) :
    ρ.Recodes (ρ.taken (List.map ρ.stmt)) (compound s inLoop c)
      (compound (ρ.scopes s) inLoop (ρ.cursor c)) := by
  rw [compound, compound.eq_def (ρ.scopes s)]
  refine .bind (ρ.keyword_cursor c _) ?_
  rintro ⟨_, c₁, h₁⟩
  refine .bind (statements_cursor inLoop c₁) ?_
  rintro ⟨ss, c₂, h₂⟩
  refine .bind (ρ.keyword_cursor c₂ _) ?_
  rintro ⟨_, c₃, h₃⟩
  exact .pure rfl
termination_by 4 * c.size

end

end Recoding

end MiniPascal
