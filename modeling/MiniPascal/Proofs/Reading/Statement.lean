import MiniPascal.Grammar.Statement
import MiniPascal.Proofs.Reading.Expression

/-! No statement is read without a token of its own, and none needs more than three labels beside
those of its parts. -/

namespace MiniPascal.Grammar

open Cursor

section

variable {s : Scopes} (hs : s.Sound)
include hs

theorem designator_checked (name : Located Name) {c : Cursor} (hc : c.Spelled) :
    Read.Ensures (designator s name c) fun t =>
      t.value.Checked s.context ∧ t.value.isDesignator = true ∧ t.rest.Spelled := by
  unfold designator
  refine .bind (Read.ensures_checked _) ?_
  rintro ⟨d, st⟩ hd
  have hsound := hs.lookup hd
  rcases d with ⟨q, t⟩ | _ | _ | _
  · exact selectors_checked hs (.var ⟨name.position, q, hd⟩ hsound) rfl hc
  · exact .error
  · exact .error
  · exact .error

omit hs in
theorem assignedValue_checked {op : Option BinOp} {target value : Expr}
    (ht : target.Checked s.context) (hv : value.Checked s.context) (p : Position) :
    Read.Ensures (assignedValue op target value p) fun e => e.Checked s.context := by
  cases op with
  | none => exact .ok hv
  | some op => exact (Read.ensures_checked _).mono fun _ h => Expr.checkBinary_checked ht hv h

theorem assignment_checked (inLoop : Bool) (name : Located Name) {c : Cursor} (hc : c.Spelled) :
    Read.Ensures (assignment s name c) fun t =>
      (t.value.Checked s.context inLoop ∧ t.value.labels = 0) ∧ t.rest.Spelled := by
  unfold assignment
  refine .bind (designator_checked hs name hc) ?_
  rintro ⟨target, c₁, h₁⟩ ⟨ht, hd, hc₁⟩
  refine .bind (accept_spelled hc₁ _) fun o ho => ?_
  rcases o with _ | ⟨⟨op, token⟩, c₂, h₂⟩
  · exact missing_ensures
  · refine .bind (expression_checked hs (ho _ rfl).2.2) ?_
    rintro ⟨value, c₃, h₃⟩ ⟨hv, hc₃⟩
    refine .bind (assignedValue_checked ht hv _) fun value hv => ?_
    refine .bind (checkAssignable_ensures _ _ _) fun _ ha => ?_
    exact .pure ⟨⟨.assign ht hd hv ha, rfl⟩, hc₃⟩

theorem callStatement_checked (inLoop : Bool) (name : Located Name) {c : Cursor}
    (hc : c.Spelled) :
    Read.Ensures (callStatement s name c) fun t =>
      (t.value.Checked s.context inLoop ∧ t.value.labels = 0) ∧ t.rest.Spelled := by
  unfold callStatement
  refine .bind (Read.ensures_checked _) fun r hr => ?_
  refine .bind (arguments_checked hs name r.paramTypes hc) ?_
  rintro ⟨args, c₁, h₁⟩ ⟨ha, hp, hc₁⟩
  exact .pure ⟨⟨.call (lookupRoutine_context hr) ha hp, rfl⟩, hc₁⟩

theorem writeArg_checked {c : Cursor} (hc : c.Spelled) :
    Read.Ensures (writeArg s c) fun t => t.value.Checked s.context ∧ t.rest.Spelled := by
  unfold writeArg
  split
  · refine .bind (expect_spelled hc _) ?_
    rintro ⟨token, c₁, h₁⟩ ⟨_, _, hc₁⟩
    exact .pure ⟨trivial, hc₁⟩
  · refine .bind (expression_checked hs hc) ?_
    rintro ⟨e, c₁, h₁⟩ ⟨he, hc₁⟩
    dsimp only
    split
    · rename_i ht
      cases hty : e.type with
      | scalar sc => exact .pure ⟨⟨he, sc, hty⟩, hc₁⟩
      | array | record => simp [hty, Ty.scalar?] at ht
    · exact .error

theorem writeArgs_checked {c : Cursor} (hc : c.Spelled) :
    Read.Ensures (writeArgs s c) fun t =>
      (∀ a ∈ t.value, a.Checked s.context) ∧ t.rest.Spelled := by
  unfold writeArgs
  refine .bind (writeArg_checked hs hc) ?_
  rintro ⟨arg, c₁, h₁⟩ ⟨ha, hc₁⟩
  refine .bind (acceptSymbol_spelled hc₁ _) fun o ho => ?_
  rcases o with _ | ⟨_, c₂, h₂⟩
  · exact .pure ⟨List.forall_mem_singleton.2 ha, hc₁⟩
  · refine .bind (writeArgs_checked (ho _ rfl)) ?_
    rintro ⟨args, c₃, h₃⟩ ⟨has, hc₃⟩
    exact .pure ⟨List.forall_mem_cons.2 ⟨ha, has⟩, hc₃⟩
termination_by c.size

theorem writeStatement_checked (inLoop newline : Bool) {c : Cursor} (hc : c.Spelled) :
    Read.Ensures (writeStatement s newline c) fun t =>
      (t.value.Checked s.context inLoop ∧ t.value.labels = 0) ∧ t.rest.Spelled := by
  unfold writeStatement
  refine .bind (acceptSymbol_spelled hc _) fun o ho => ?_
  rcases o with _ | ⟨_, c₁, h₁⟩
  · exact .pure ⟨⟨.write nofun, rfl⟩, hc⟩
  · have hc₁ := ho _ rfl
    dsimp only
    split
    · refine .bind (symbol_spelled hc₁ _) ?_
      rintro ⟨_, c₂, h₂⟩ hc₂
      exact .pure ⟨⟨.write nofun, rfl⟩, hc₂⟩
    · refine .bind (writeArgs_checked hs hc₁) ?_
      rintro ⟨args, c₂, h₂⟩ ⟨ha, hc₂⟩
      refine .bind (symbol_spelled hc₂ _) ?_
      rintro ⟨_, c₃, h₃⟩ hc₃
      exact .pure ⟨⟨.write ha, rfl⟩, hc₃⟩

theorem namedStatement_checked (inLoop : Bool) (name : Located Name) {c : Cursor}
    (hc : c.Spelled) :
    Read.Ensures (namedStatement s name c) fun t =>
      (t.value.Checked s.context inLoop ∧ t.value.labels = 0) ∧ t.rest.Spelled := by
  unfold namedStatement
  split
  · exact writeStatement_checked hs inLoop _ hc
  · exact callStatement_checked hs inLoop name hc
  · split
    · exact callStatement_checked hs inLoop name hc
    · exact assignment_checked hs inLoop name hc

theorem condition_checked {c : Cursor} (hc : c.Spelled) :
    Read.Ensures (condition s c) fun t =>
      t.value.Checked s.context ∧ t.value.type = .boolean ∧ t.rest.Spelled := by
  unfold condition
  refine .bind (expression_checked hs hc) ?_
  rintro ⟨e, c₁, h₁⟩ ⟨he, hc₁⟩
  refine .bind (Read.ensures_checked _) fun u hu => .pure ⟨he, ?_, hc₁⟩
  unfold Typing.checkCondition at hu
  split at hu
  · rename_i ht
    cases hty : e.type with
    | scalar sc => simpa [hty, Ty.scalar?] using ht
    | array | record => simp [hty, Ty.scalar?] at ht
  · cases hu

theorem loopLimit_checked (context : String) {c : Cursor} (hc : c.Spelled) :
    Read.Ensures (loopLimit s context c) fun t =>
      t.value.Checked s.context ∧ t.value.type = .integer ∧ t.rest.Spelled := by
  unfold loopLimit
  refine .bind (expression_checked hs hc) ?_
  rintro ⟨e, c₁, h₁⟩ ⟨he, hc₁⟩
  refine .bind (checkAssignable_ensures _ _ _) fun _ ha => .pure ⟨he, ?_, hc₁⟩
  cases hty : e.type with
  | scalar sc => cases sc <;> simp_all [Typing.assignable, Ty.scalar?]
  | array | record => simp [hty, Typing.assignable, Ty.scalar?, Ty.sameShape] at ha

theorem loopCounter_checked {c : Cursor} (hc : c.Spelled) :
    Read.Ensures (loopCounter s c) fun t =>
      (t.value.Checked s.context ∧ t.value.isDesignator = true ∧ t.value.type = .integer) ∧
        t.rest.Spelled := by
  unfold loopCounter
  refine .bind (identifier_spelled hc) ?_
  rintro ⟨name, c₁, h₁⟩ ⟨_, hc₁⟩
  refine .bind (designator_checked hs name hc₁) ?_
  rintro ⟨target, c₂, h₂⟩ ⟨ht, hd, hc₂⟩
  dsimp only
  split
  · rename_i hi
    exact .pure ⟨⟨ht, hd, Expr.integer_of_isInteger hi⟩, hc₂⟩
  · exact .error

theorem loopHead_checked {c : Cursor} (hc : c.Spelled) :
    Read.Ensures (loopHead s c) fun t => t.rest.Spelled ∧ ∀ p body,
      body.Checked s.context true → ∀ inLoop,
        (Stmt.forTo p t.value.1 t.value.2.1 t.value.2.2 body).Checked s.context inLoop := by
  unfold loopHead
  refine .bind (loopCounter_checked hs hc) ?_
  rintro ⟨target, c₁, h₁⟩ ⟨⟨ht, hd, htt⟩, hc₁⟩
  refine .bind (symbol_spelled hc₁ _) ?_
  rintro ⟨_, c₂, h₂⟩ hc₂
  refine .bind (loopLimit_checked hs _ hc₂) ?_
  rintro ⟨first, c₃, h₃⟩ ⟨hf, hft, hc₃⟩
  dsimp only
  split
  · exact .error
  · refine .bind (keyword_spelled hc₃ _) ?_
    rintro ⟨_, c₄, h₄⟩ hc₄
    refine .bind (loopLimit_checked hs _ hc₄) ?_
    rintro ⟨bound, c₅, h₅⟩ ⟨hb, hbt, hc₅⟩
    exact .pure ⟨hc₅, fun p body hbody _ => .forTo ht hd htt hf hft hb hbt hbody⟩

end

/-- What holds of a statement that has been read from one cursor up to another. -/
structure ReadBetween (Γ : Context) (inLoop : Bool) (s : Stmt) (c rest : Cursor) : Prop where
  checked : s.Checked Γ inLoop
  spelled : rest.Spelled
  labels : s.labels + 3 * rest.size ≤ 3 * c.size

section

-- the rules call each other, and some use what the scopes hold only through another rule
set_option linter.unusedSectionVars false

variable {s : Scopes} (hs : s.Sound)
include hs

mutual

/-- What is read as a statement obeys the rules and has no more than three labels for each of its
tokens. -/
theorem statement_checked (inLoop : Bool) {c : Cursor} (hc : c.Spelled) :
    Read.Ensures (statement s inLoop c) fun t =>
      ReadBetween s.context inLoop (t.value.getD .empty) c t.rest := by
  unfold statement
  split
  · -- a block
    refine .bind (compound_checked inLoop hc) ?_
    rintro ⟨ss, c₁, h₁⟩ h
    exact .pure h
  · -- `if`
    refine .bind (keyword_spelled hc _) ?_
    rintro ⟨_, c₁, h₁⟩ hc₁
    refine .bind (condition_checked hs hc₁) ?_
    rintro ⟨test, c₂, h₂⟩ ⟨ht, htt, hc₂⟩
    refine .bind (keyword_spelled hc₂ _) ?_
    rintro ⟨_, c₃, h₃⟩ hc₃
    refine .bind (body_checked inLoop hc₃) ?_
    rintro ⟨yes, c₄, h₄⟩ ⟨hy, hc₄, hly⟩
    refine .bind (acceptKeyword_spelled hc₄ _) fun o ho => ?_
    rcases o with _ | ⟨_, c₅, h₅⟩
    · have h : ReadBetween s.context inLoop (.ifElse test yes none) c c₄ :=
        ⟨.ifThen ht htt hy, hc₄, by simp only [Stmt.labels] at hly ⊢; omega⟩
      exact .pure h
    · refine .bind (body_checked inLoop (ho _ rfl)) ?_
      rintro ⟨no, c₆, h₆⟩ ⟨hn, hc₆, hln⟩
      have h : ReadBetween s.context inLoop (.ifElse test yes (some no)) c c₆ :=
        ⟨.ifElse ht htt hy hn, hc₆, by simp only [Stmt.labels] at hly hln ⊢; omega⟩
      exact .pure h
  · -- `while`
    refine .bind (keyword_spelled hc _) ?_
    rintro ⟨_, c₁, h₁⟩ hc₁
    refine .bind (condition_checked hs hc₁) ?_
    rintro ⟨test, c₂, h₂⟩ ⟨ht, htt, hc₂⟩
    refine .bind (keyword_spelled hc₂ _) ?_
    rintro ⟨_, c₃, h₃⟩ hc₃
    refine .bind (body_checked true hc₃) ?_
    rintro ⟨b, c₄, h₄⟩ ⟨hb, hc₄, hl⟩
    have h : ReadBetween s.context inLoop (.while test b) c c₄ :=
      ⟨.while ht htt hb, hc₄, by simp only [Stmt.labels] at hl ⊢; omega⟩
    exact .pure h
  · -- `repeat`
    refine .bind (keyword_spelled hc _) ?_
    rintro ⟨_, c₁, h₁⟩ hc₁
    refine .bind (statements_checked true hc₁) ?_
    rintro ⟨ss, c₂, h₂⟩ ⟨hb, hc₂, hl⟩
    refine .bind (keyword_spelled hc₂ _) ?_
    rintro ⟨_, c₃, h₃⟩ hc₃
    refine .bind (condition_checked hs hc₃) ?_
    rintro ⟨test, c₄, h₄⟩ ⟨ht, htt, hc₄⟩
    have h : ReadBetween s.context inLoop (.repeatUntil (.block ss) test) c c₄ :=
      ⟨.repeatUntil hb ht htt, hc₄, by simp only [Stmt.labels] at hl ⊢; omega⟩
    exact .pure h
  · -- `for`
    refine .bind (keyword_spelled hc _) ?_
    rintro ⟨token, c₁, h₁⟩ hc₁
    refine .bind (loopHead_checked hs hc₁) ?_
    rintro ⟨⟨target, first, bound⟩, c₂, h₂⟩ ⟨hc₂, hfor⟩
    refine .bind (keyword_spelled hc₂ _) ?_
    rintro ⟨_, c₃, h₃⟩ hc₃
    refine .bind (body_checked true hc₃) ?_
    rintro ⟨b, c₄, h₄⟩ ⟨hb, hc₄, hl⟩
    have h : ReadBetween s.context inLoop (.forTo token.position target first bound b) c c₄ :=
      ⟨hfor _ _ hb _, hc₄, by simp only [Stmt.labels] at hl ⊢; omega⟩
    exact .pure h
  · -- a statement with a name in front
    refine .bind (identifier_spelled hc) ?_
    rintro ⟨name, c₁, h₁⟩ ⟨_, hc₁⟩
    refine .bind (namedStatement_checked hs inLoop name hc₁) ?_
    rintro ⟨st, c₂, h₂⟩ ⟨⟨hst, hl⟩, hc₂⟩
    have h : ReadBetween s.context inLoop st c c₂ := ⟨hst, hc₂, by dsimp only at hl; omega⟩
    exact .pure h
  · -- nothing, or `break` and `continue`
    refine .bind (accept_spelled hc _) fun o ho => ?_
    rcases o with _ | ⟨⟨kind, token⟩, c₁, h₁⟩
    · have h : ReadBetween s.context inLoop .empty c c :=
        ⟨.block nofun, hc, Nat.le_of_eq (Nat.zero_add _)⟩
      exact .pure h
    · dsimp only
      split
      · rename_i hin
        have h : ReadBetween s.context inLoop (.transition kind token.position) c c₁ :=
          ⟨hin ▸ .transition, (ho _ rfl).2.2, by simp only [Stmt.labels]; omega⟩
        exact .pure h
      · exact .error
termination_by 4 * c.size + 1

theorem body_checked (inLoop : Bool) {c : Cursor} (hc : c.Spelled) :
    Read.Ensures (body s inLoop c) fun t => ReadBetween s.context inLoop t.value c t.rest := by
  unfold body
  refine .bind (statement_checked inLoop hc) ?_
  rintro ⟨st, c₁, h₁⟩ h
  exact .pure h
termination_by 4 * c.size + 2

theorem statements_checked (inLoop : Bool) {c : Cursor} (hc : c.Spelled) :
    Read.Ensures (statements s inLoop c) fun t =>
      ReadBetween s.context inLoop (.block t.value) c t.rest := by
  unfold statements
  refine .bind (statement_checked inLoop hc) ?_
  rintro ⟨st, c₁, h₁⟩ ⟨hst, hc₁, hl₁⟩
  have hone : (Stmt.block st.toList).Checked s.context inLoop ∧
      Stmt.labelsOfAll st.toList = (st.getD .empty).labels := by
    cases st with
    | none => exact ⟨.block nofun, rfl⟩
    | some st => exact ⟨.block (List.forall_mem_singleton.2 hst), rfl⟩
  refine .bind (acceptSymbol_spelled hc₁ _) fun o ho => ?_
  rcases o with _ | ⟨_, c₂, h₂⟩
  · have h : ReadBetween s.context inLoop (.block st.toList) c c₁ :=
      ⟨hone.1, hc₁, by simpa only [Stmt.labels, hone.2] using hl₁⟩
    exact .pure h
  · refine .bind (statements_checked inLoop (ho _ rfl)) ?_
    rintro ⟨ss, c₃, h₃⟩ ⟨hss, hc₃, hl₃⟩
    have h : ReadBetween s.context inLoop (.block (st.toList ++ ss)) c c₃ := by
      refine ⟨Stmt.checked_block_append hone.1 hss, hc₃, ?_⟩
      simp only [Stmt.labels, Stmt.labelsOfAll_append, hone.2] at hl₁ hl₃ ⊢
      omega
    exact .pure h
termination_by 4 * c.size + 2

theorem compound_checked (inLoop : Bool) {c : Cursor} (hc : c.Spelled) :
    Read.Ensures (compound s inLoop c) fun t =>
      ReadBetween s.context inLoop (.block t.value) c t.rest := by
  unfold compound
  refine .bind (keyword_spelled hc _) ?_
  rintro ⟨_, c₁, h₁⟩ hc₁
  refine .bind (statements_checked inLoop hc₁) ?_
  rintro ⟨ss, c₂, h₂⟩ ⟨hss, hc₂, hl⟩
  refine .bind (keyword_spelled hc₂ _) ?_
  rintro ⟨_, c₃, h₃⟩ hc₃
  have h : ReadBetween s.context inLoop (.block ss) c c₃ :=
    ⟨hss, hc₃, by dsimp only at hl h₃; omega⟩
  exact .pure h
termination_by 4 * c.size

end

end

end MiniPascal.Grammar
