import MiniPascal.Proofs.Reading.Everywhere

/-! A tree is no larger than the text it is read from. -/

namespace MiniPascal

mutual

/-- The number of expressions in an expression, with itself. -/
def Expr.size : Expr → Nat
  | .int .. | .double .. | .bool .. | .var .. => 1
  | .unary _ _ _ e => e.size + 1
  | .binary _ _ _ l r => l.size + r.size + 1
  | .call _ _ _ _ args _ => sizeOfAll args + 1
  | .index _ _ a i => a.size + i.size + 1
  | .field _ _ r _ _ => r.size + 1

/-- The number of expressions in some expressions. -/
def Expr.sizeOfAll : List Expr → Nat
  | [] => 0
  | e :: es => e.size + sizeOfAll es

end

/-- The number of expressions in what is written. -/
def WriteArg.sizeOfAll : List WriteArg → Nat
  | [] => 0
  | .text _ :: args => sizeOfAll args
  | .value e :: args => e.size + sizeOfAll args

mutual

/-- The number of expressions that the code of a statement evaluates, each as often as it stands
there. A counting loop finds its counter twice, and has names of its own. -/
def Stmt.size : Stmt → Nat
  | .block ss => sizeOfAll ss
  | .ifElse c yes none => c.size + yes.size
  | .ifElse c yes (some no) => c.size + yes.size + no.size
  | .forTo _ target first bound body =>
    first.size + 2 * target.size + bound.size + 1 + body.size
  | .while c body => c.size + body.size
  | .repeatUntil body c => body.size + c.size
  | .assign target e => e.size + target.size
  | .call _ _ args _ _ => Expr.sizeOfAll args
  | .write _ args => WriteArg.sizeOfAll args
  | .transition .. => 0

/-- The number of expressions that the code of some statements evaluates. -/
def Stmt.sizeOfAll : List Stmt → Nat
  | [] => 0
  | s :: ss => s.size + sizeOfAll ss

end

theorem Stmt.sizeOfAll_append (ss ts : List Stmt) :
    sizeOfAll (ss ++ ts) = sizeOfAll ss + sizeOfAll ts := by
  induction ss with
  | nil => simp [sizeOfAll]
  | cons s ss ih => simp only [List.cons_append, sizeOfAll, ih, Nat.add_assoc]

namespace Expr

theorem size_ofConstant (c : Constant) (p : Position) : (ofConstant c p).size ≤ 2 := by
  cases c with
  | int n =>
    unfold ofConstant
    dsimp only
    split
    · exact Nat.le_refl 2
    · exact Nat.le_succ 1
  | double | bool => exact Nat.le_succ 1

theorem size_checkBinary {op : BinOp} {l r e : Expr} {p : Position}
    (h : checkBinary op l r p = .ok e) : e.size = l.size + r.size + 1 := by
  obtain ⟨_, _, rfl⟩ := checkBinary_ok h
  rw [size]

theorem size_checkUnary {op : UnaryOp} {a e : Expr} {p : Position}
    (h : checkUnary op a p = .ok e) : e.size = a.size + 1 := by
  obtain ⟨_, rfl⟩ := checkUnary_ok h
  rw [size]

theorem size_checkIndex {a i e : Expr} {p : Position} (h : checkIndex a i p = .ok e) :
    e.size = a.size + i.size + 1 := by
  obtain ⟨_, _, _, _, _, rfl⟩ := checkIndex_ok h
  rw [size]

theorem size_checkField {r e : Expr} {n : Name} {p : Position} (h : checkField r n p = .ok e) :
    e.size = r.size + 1 := by
  unfold checkField at h
  cases hf : Typing.field r.type n p with
  | error f => rw [hf] at h; cases h
  | ok f => rw [hf] at h; cases h; rw [size]

end Expr

namespace Grammar

open Cursor

theorem number_size (c : Cursor) :
    Read.Ensures (number c) fun t => t.value.size + 2 * t.rest.size ≤ 2 * c.size := by
  unfold number
  refine .step ?_
  rintro ⟨token, c₁, h₁⟩
  have hliteral : Read.Ensures (literal token) fun e => e.size = 1 := by
    unfold literal
    split
    · split
      · exact .ok rfl
      · exact .error
    · exact .ok rfl
    · exact .ok rfl
    · exact .error
  refine .bind hliteral fun e he => .pure ?_
  show e.size + 2 * c₁.size ≤ 2 * c.size
  omega

variable {s : Scopes}

mutual

/-- An expression is no larger than two for each of its tokens. -/
theorem expression_size (c : Cursor) :
    Read.Ensures (expression s c) fun t => t.value.size + 2 * t.rest.size ≤ 2 * c.size := by
  unfold expression
  exact operation_size .relational c
termination_by 16 * c.size + 11
decreasing_by simp only [Precedence.height]; omega

theorem operand_size (p : Precedence) (c : Cursor) :
    Read.Ensures (operand s p c) fun t => t.value.size + 2 * t.rest.size ≤ 2 * c.size := by
  unfold operand
  cases p with
  | relational => exact operation_size .additive c
  | additive => exact operation_size .multiplicative c
  | multiplicative => exact unary_size c
termination_by 16 * c.size + 2 * p.height + 3
decreasing_by all_goals simp only [Precedence.height]; omega

theorem operation_size (p : Precedence) (c : Cursor) :
    Read.Ensures (operation s p c) fun t => t.value.size + 2 * t.rest.size ≤ 2 * c.size := by
  unfold operation
  refine .bind (operand_size p c) ?_
  rintro ⟨left, c₁, h₁⟩ hl
  refine .bind (operations_size p left c₁) ?_
  rintro ⟨e, c₂, h₂⟩ he
  exact .pure (Nat.le_trans he hl)
termination_by 16 * c.size + 2 * p.height + 4

theorem operations_size (p : Precedence) (left : Expr) (c : Cursor) :
    Read.Ensures (operations s p left c) fun t =>
      t.value.size + 2 * t.rest.size ≤ left.size + 2 * c.size := by
  unfold operations
  refine .step fun o => ?_
  rcases o with _ | ⟨⟨op, token⟩, c₁, h₁⟩
  · exact .pure (Nat.le_refl _)
  · refine .bind (operand_size p c₁) ?_
    rintro ⟨right, c₂, h₂⟩ hr
    refine .bind (Read.ensures_checked _) fun e he => ?_
    refine .bind (operations_size p e c₂) ?_
    rintro ⟨e', c₃, h₃⟩ he'
    have hsize := Expr.size_checkBinary he
    refine .pure ?_
    show e'.size + 2 * c₃.size ≤ left.size + 2 * c.size
    dsimp only at hr he'
    omega
termination_by 16 * c.size
decreasing_by all_goals have := p.height_le; omega

theorem unary_size (c : Cursor) :
    Read.Ensures (unary s c) fun t => t.value.size + 2 * t.rest.size ≤ 2 * c.size := by
  unfold unary
  refine .step fun o => ?_
  rcases o with _ | ⟨⟨op, token⟩, c₁, h₁⟩
  · exact primary_size c
  · refine .bind (unary_size c₁) ?_
    rintro ⟨a, c₂, h₂⟩ ha
    refine .bind (Read.ensures_checked _) fun e he => .pure ?_
    have hsize := Expr.size_checkUnary he
    show e.size + 2 * c₂.size ≤ 2 * c.size
    dsimp only at ha
    omega
termination_by 16 * c.size + 4

theorem primary_size (c : Cursor) :
    Read.Ensures (primary s c) fun t => t.value.size + 2 * t.rest.size ≤ 2 * c.size := by
  unfold primary
  split
  · exact number_size c
  · exact number_size c
  · split
    · refine .step ?_
      rintro ⟨token, c₁, h₁⟩
      refine .pure ?_
      show 1 + 2 * c₁.size ≤ 2 * c.size
      omega
    · exact unexpected_ensures
  · refine .step ?_
    rintro ⟨_, c₁, h₁⟩
    refine .bind (expression_size c₁) ?_
    rintro ⟨e, c₂, h₂⟩ he
    refine .step ?_
    rintro ⟨_, c₃, h₃⟩
    refine .pure ?_
    show e.size + 2 * c₃.size ≤ 2 * c.size
    dsimp only at he
    omega
  · refine .step ?_
    rintro ⟨name, c₁, h₁⟩
    refine .bind (named_size name c₁) ?_
    rintro ⟨e, c₂, h₂⟩ he
    refine .pure ?_
    show e.size + 2 * c₂.size ≤ 2 * c.size
    dsimp only at he
    omega
  · exact unexpected_ensures
termination_by 16 * c.size + 3

theorem named_size (name : Located Name) (c : Cursor) :
    Read.Ensures (named s name c) fun t => t.value.size + 2 * t.rest.size ≤ 2 + 2 * c.size := by
  unfold named
  split
  · exact callOf_size name c
  · refine .step ?_
    rintro ⟨d, storage⟩
    rcases d with ⟨q, t⟩ | ⟨q, v⟩ | ⟨q, t⟩ | r
    · refine (selectors_size _ c).mono fun t ht => Nat.le_trans ht ?_
      exact Nat.add_le_add_right (Nat.le_succ 1) _
    · refine .step fun k => .pure ?_
      exact Nat.add_le_add_right (Expr.size_ofConstant k _) _
    · exact .error
    · exact callOf_size name c
termination_by 16 * c.size + 2

theorem callOf_size (name : Located Name) (c : Cursor) :
    Read.Ensures (callOf s name c) fun t => t.value.size + 2 * t.rest.size ≤ 2 + 2 * c.size := by
  unfold callOf
  refine .step fun r => ?_
  split
  · exact .error
  · refine .bind (arguments_size name _ c) ?_
    rintro ⟨args, c₁, h₁⟩ ha
    refine .pure ?_
    simp only [Expr.size]
    dsimp only at ha
    omega
termination_by 16 * c.size + 1

theorem arguments_size (name : Located Name) (params : List Ty) (c : Cursor) :
    Read.Ensures (arguments s name params c) fun t =>
      Expr.sizeOfAll t.value + 2 * t.rest.size ≤ 2 * c.size := by
  unfold arguments
  refine .step fun o => ?_
  rcases o with _ | ⟨_, c₁, h₁⟩
  · exact .step fun _ => .pure (Nat.le_of_eq (Nat.zero_add _))
  · dsimp only
    split
    · refine .step ?_
      rintro ⟨_, c₂, h₂⟩
      refine .step fun _ => .pure ?_
      show 0 + 2 * c₂.size ≤ 2 * c.size
      omega
    · refine .bind (expressions_size c₁) ?_
      rintro ⟨args, c₂, h₂⟩ ha
      refine .step ?_
      rintro ⟨_, c₃, h₃⟩
      refine .step fun _ => .pure ?_
      show Expr.sizeOfAll args + 2 * c₃.size ≤ 2 * c.size
      dsimp only at ha h₃
      omega
termination_by 16 * c.size

theorem expressions_size (c : Cursor) :
    Read.Ensures (expressions s c) fun t =>
      Expr.sizeOfAll t.value + 2 * t.rest.size ≤ 2 * c.size := by
  unfold expressions
  refine .bind (expression_size c) ?_
  rintro ⟨e, c₁, h₁⟩ he
  refine .step fun o => ?_
  rcases o with _ | ⟨_, c₂, h₂⟩
  · exact .pure he
  · refine .bind (expressions_size c₂) ?_
    rintro ⟨es, c₃, h₃⟩ hes
    refine .pure ?_
    show Expr.sizeOfAll (e :: es) + 2 * c₃.size ≤ 2 * c.size
    rw [Expr.sizeOfAll]
    dsimp only at he hes
    omega
termination_by 16 * c.size + 12

theorem selectors_size (e : Expr) (c : Cursor) :
    Read.Ensures (selectors s e c) fun t =>
      t.value.size + 2 * t.rest.size ≤ e.size + 2 * c.size := by
  unfold selectors
  refine .step fun o => ?_
  rcases o with _ | ⟨token, c₁, h₁⟩
  · dsimp only
    split
    · refine .step fun o => ?_
      rcases o with _ | ⟨token, c₁, h₁⟩
      · exact .pure (Nat.le_refl _)
      · refine .step ?_
        rintro ⟨name, c₂, h₂⟩
        refine .bind (Read.ensures_checked _) fun f hf => ?_
        refine .bind (selectors_size f c₂) ?_
        rintro ⟨e', c₃, h₃⟩ he'
        have hsize := Expr.size_checkField hf
        refine .pure ?_
        show e'.size + 2 * c₃.size ≤ e.size + 2 * c.size
        dsimp only at he'
        omega
    · exact .pure (Nat.le_refl _)
  · refine .bind (indices_size e token.position c₁) ?_
    rintro ⟨a, c₂, h₂⟩ ha
    refine .step ?_
    rintro ⟨_, c₃, h₃⟩
    refine .bind (selectors_size a c₃) ?_
    rintro ⟨e', c₄, h₄⟩ he'
    refine .pure ?_
    show e'.size + 2 * c₄.size ≤ e.size + 2 * c.size
    dsimp only at ha he'
    omega
termination_by 16 * c.size

/-- The comma or bracket in front of an index pays for the element that it selects. -/
theorem indices_size (e : Expr) (p : Position) (c : Cursor) :
    Read.Ensures (indices s e p c) fun t =>
      t.value.size + 2 * t.rest.size ≤ e.size + 1 + 2 * c.size := by
  unfold indices
  refine .bind (expression_size c) ?_
  rintro ⟨i, c₁, h₁⟩ hi
  refine .bind (Read.ensures_checked _) fun a ha => ?_
  have hsize := Expr.size_checkIndex ha
  dsimp only at hi
  refine .step fun o => ?_
  rcases o with _ | ⟨token, c₂, h₂⟩
  · refine .pure ?_
    show a.size + 2 * c₁.size ≤ e.size + 1 + 2 * c.size
    omega
  · refine .bind (indices_size a token.position c₂) ?_
    rintro ⟨e', c₃, h₃⟩ he'
    refine .pure ?_
    show e'.size + 2 * c₃.size ≤ e.size + 1 + 2 * c.size
    dsimp only at he'
    omega
termination_by 16 * c.size + 12

end

/-! ### Statements -/

theorem designator_size (name : Located Name) (c : Cursor) :
    Read.Ensures (designator s name c) fun t =>
      t.value.size + 2 * t.rest.size ≤ 1 + 2 * c.size := by
  unfold designator
  refine .step ?_
  rintro ⟨d, storage⟩
  rcases d with ⟨q, t⟩ | _ | _ | _
  · exact selectors_size _ c
  · exact .error
  · exact .error
  · exact .error

/-- An operator in front of the `=` evaluates the variable once more. -/
theorem assignedValue_size (op : Option BinOp) (target value : Expr) (p : Position) :
    Read.Ensures (assignedValue op target value p) fun e =>
      e.size ≤ target.size + value.size + 1 := by
  cases op with
  | none => exact .ok (by omega)
  | some op =>
    exact (Read.ensures_checked _).mono fun _ h => Nat.le_of_eq (Expr.size_checkBinary h)

theorem writeArg_size (c : Cursor) :
    Read.Ensures (writeArg s c) fun t =>
      WriteArg.sizeOfAll [t.value] + 2 * t.rest.size ≤ 2 * c.size := by
  unfold writeArg
  split
  · refine .step ?_
    rintro ⟨token, c₁, h₁⟩
    refine .pure ?_
    show 0 + 2 * c₁.size ≤ 2 * c.size
    omega
  · refine .bind (expression_size c) ?_
    rintro ⟨e, c₁, h₁⟩ he
    dsimp only
    split
    · exact .pure he
    · exact .error

theorem writeArgs_size (c : Cursor) :
    Read.Ensures (writeArgs s c) fun t =>
      WriteArg.sizeOfAll t.value + 2 * t.rest.size ≤ 2 * c.size := by
  have hcons (a : WriteArg) (args : List WriteArg) :
      WriteArg.sizeOfAll (a :: args) = WriteArg.sizeOfAll [a] + WriteArg.sizeOfAll args := by
    cases a <;> simp [WriteArg.sizeOfAll]
  unfold writeArgs
  refine .bind (writeArg_size c) ?_
  rintro ⟨a, c₁, h₁⟩ ha
  refine .step fun o => ?_
  rcases o with _ | ⟨_, c₂, h₂⟩
  · exact .pure ha
  · refine .bind (writeArgs_size c₂) ?_
    rintro ⟨args, c₃, h₃⟩ has
    refine .pure ?_
    show WriteArg.sizeOfAll (a :: args) + 2 * c₃.size ≤ 2 * c.size
    dsimp only at ha has
    rw [hcons]
    omega
termination_by c.size

theorem assignment_size (name : Located Name) (c : Cursor) :
    Read.Ensures (assignment s name c) fun t =>
      t.value.size + 4 * t.rest.size ≤ 4 * c.size := by
  unfold assignment
  refine .bind (designator_size name c) ?_
  rintro ⟨target, c₁, h₁⟩ ht
  refine .step fun o => ?_
  rcases o with _ | ⟨⟨op, token⟩, c₂, h₂⟩
  · exact missing_ensures
  · refine .bind (expression_size c₂) ?_
    rintro ⟨value, c₃, h₃⟩ hv
    refine .bind (assignedValue_size op target value token.position) fun e he => ?_
    refine .step fun _ => .pure ?_
    -- an operator writes the target once more, which the tokens of the target pay for
    show e.size + target.size + 4 * c₃.size ≤ 4 * c.size
    dsimp only at ht hv
    omega

theorem callStatement_size (name : Located Name) (c : Cursor) :
    Read.Ensures (callStatement s name c) fun t =>
      t.value.size + 4 * t.rest.size ≤ 4 * c.size := by
  unfold callStatement
  refine .step fun r => ?_
  refine .bind (arguments_size name r.paramTypes c) ?_
  rintro ⟨args, c₁, h₁⟩ ha
  refine .pure ?_
  show Expr.sizeOfAll args + 4 * c₁.size ≤ 4 * c.size
  dsimp only at ha
  omega

theorem writeStatement_size (newline : Bool) (c : Cursor) :
    Read.Ensures (writeStatement s newline c) fun t =>
      t.value.size + 4 * t.rest.size ≤ 4 * c.size := by
  unfold writeStatement
  refine .step fun o => ?_
  rcases o with _ | ⟨_, c₁, h₁⟩
  · exact .pure (Nat.le_of_eq (Nat.zero_add _))
  · dsimp only
    split
    · refine .step ?_
      rintro ⟨_, c₂, h₂⟩
      refine .pure ?_
      show 0 + 4 * c₂.size ≤ 4 * c.size
      omega
    · refine .bind (writeArgs_size c₁) ?_
      rintro ⟨args, c₂, h₂⟩ ha
      refine .step ?_
      rintro ⟨_, c₃, h₃⟩
      refine .pure ?_
      show WriteArg.sizeOfAll args + 4 * c₃.size ≤ 4 * c.size
      dsimp only at ha h₃
      omega

theorem namedStatement_size (name : Located Name) (c : Cursor) :
    Read.Ensures (namedStatement s name c) fun t =>
      t.value.size + 4 * t.rest.size ≤ 4 * c.size := by
  unfold namedStatement
  split
  · exact writeStatement_size _ c
  · exact callStatement_size name c
  · split
    · exact callStatement_size name c
    · exact assignment_size name c

theorem condition_size (c : Cursor) :
    Read.Ensures (condition s c) fun t => t.value.size + 2 * t.rest.size ≤ 2 * c.size := by
  unfold condition
  refine .bind (expression_size c) ?_
  rintro ⟨e, c₁, h₁⟩ he
  exact .step fun _ => .pure he

theorem loopLimit_size (context : String) (c : Cursor) :
    Read.Ensures (loopLimit s context c) fun t =>
      t.value.size + 2 * t.rest.size ≤ 2 * c.size := by
  unfold loopLimit
  refine .bind (expression_size c) ?_
  rintro ⟨e, c₁, h₁⟩ he
  exact .step fun _ => .pure he

theorem loopCounter_size (c : Cursor) :
    Read.Ensures (loopCounter s c) fun t => t.value.size + 2 * t.rest.size ≤ 2 * c.size := by
  unfold loopCounter
  refine .step ?_
  rintro ⟨name, c₁, h₁⟩
  refine .bind (designator_size name c₁) ?_
  rintro ⟨target, c₂, h₂⟩ ht
  dsimp only at ht ⊢
  split
  · refine .pure ?_
    show target.size + 2 * c₂.size ≤ 2 * c.size
    omega
  · exact .error

theorem loopHead_size (c : Cursor) :
    Read.Ensures (loopHead s c) fun t =>
      t.value.2.1.size + 2 * t.value.1.size + t.value.2.2.size + 4 * t.rest.size ≤
        4 * c.size := by
  unfold loopHead
  refine .bind (loopCounter_size c) ?_
  rintro ⟨target, c₁, h₁⟩ ht
  refine .step ?_
  rintro ⟨_, c₂, h₂⟩
  refine .bind (loopLimit_size _ c₂) ?_
  rintro ⟨first, c₃, h₃⟩ hf
  dsimp only
  split
  · exact .error
  · refine .step ?_
    rintro ⟨_, c₄, h₄⟩
    refine .bind (loopLimit_size _ c₄) ?_
    rintro ⟨bound, c₅, h₅⟩ hb
    refine .pure ?_
    show first.size + 2 * target.size + bound.size + 4 * c₅.size ≤ 4 * c.size
    dsimp only at ht hf hb
    omega

mutual

/-- The code of a statement evaluates no more than four expressions for each of its tokens. -/
theorem statement_size (b : Bool) (c : Cursor) :
    Read.Ensures (statement s b c) fun t =>
      (t.value.getD .empty).size + 4 * t.rest.size ≤ 4 * c.size := by
  unfold statement
  split
  · -- a block
    refine .bind (compound_size b c) ?_
    rintro ⟨ss, c₁, h₁⟩ hss
    exact .pure hss
  · -- `if`
    refine .step ?_
    rintro ⟨_, c₁, h₁⟩
    refine .bind (condition_size c₁) ?_
    rintro ⟨test, c₂, h₂⟩ ht
    refine .step ?_
    rintro ⟨_, c₃, h₃⟩
    refine .bind (body_size b c₃) ?_
    rintro ⟨yes, c₄, h₄⟩ hy
    dsimp only at ht hy
    refine .step fun o => ?_
    rcases o with _ | ⟨_, c₅, h₅⟩
    · refine .pure ?_
      show (Stmt.ifElse test yes none).size + 4 * c₄.size ≤ 4 * c.size
      rw [Stmt.size]
      omega
    · refine .bind (body_size b c₅) ?_
      rintro ⟨no, c₆, h₆⟩ hn
      refine .pure ?_
      show (Stmt.ifElse test yes (some no)).size + 4 * c₆.size ≤ 4 * c.size
      dsimp only at hn
      rw [Stmt.size]
      omega
  · -- `while`
    refine .step ?_
    rintro ⟨_, c₁, h₁⟩
    refine .bind (condition_size c₁) ?_
    rintro ⟨test, c₂, h₂⟩ ht
    refine .step ?_
    rintro ⟨_, c₃, h₃⟩
    refine .bind (body_size true c₃) ?_
    rintro ⟨st, c₄, h₄⟩ h
    refine .pure ?_
    show (Stmt.while test st).size + 4 * c₄.size ≤ 4 * c.size
    dsimp only at ht h
    rw [Stmt.size]
    omega
  · -- `repeat`
    refine .step ?_
    rintro ⟨_, c₁, h₁⟩
    refine .bind (statements_size true c₁) ?_
    rintro ⟨ss, c₂, h₂⟩ hss
    refine .step ?_
    rintro ⟨_, c₃, h₃⟩
    refine .bind (condition_size c₃) ?_
    rintro ⟨test, c₄, h₄⟩ ht
    refine .pure ?_
    show (Stmt.repeatUntil (.block ss) test).size + 4 * c₄.size ≤ 4 * c.size
    dsimp only at ht hss
    rw [Stmt.size, Stmt.size]
    omega
  · -- `for`
    refine .step ?_
    rintro ⟨token, c₁, h₁⟩
    refine .bind (loopHead_size c₁) ?_
    rintro ⟨⟨target, first, bound⟩, c₂, h₂⟩ hhead
    refine .step ?_
    rintro ⟨_, c₃, h₃⟩
    refine .bind (body_size true c₃) ?_
    rintro ⟨st, c₄, h₄⟩ h
    refine .pure ?_
    show (Stmt.forTo token.position target first bound st).size + 4 * c₄.size ≤ 4 * c.size
    dsimp only at hhead h
    rw [Stmt.size]
    omega
  · -- a statement with a name in front
    refine .step ?_
    rintro ⟨name, c₁, h₁⟩
    refine .bind (namedStatement_size name c₁) ?_
    rintro ⟨st, c₂, h₂⟩ h
    refine .pure ?_
    show st.size + 4 * c₂.size ≤ 4 * c.size
    dsimp only at h
    omega
  · -- nothing, or `break` and `continue`
    refine .step fun o => ?_
    rcases o with _ | ⟨⟨kind, token⟩, c₁, h₁⟩
    · exact .pure (Nat.le_of_eq (Nat.zero_add _))
    · dsimp only
      split
      · refine .pure ?_
        show 0 + 4 * c₁.size ≤ 4 * c.size
        omega
      · exact .error
termination_by 4 * c.size + 1

theorem body_size (b : Bool) (c : Cursor) :
    Read.Ensures (body s b c) fun t => t.value.size + 4 * t.rest.size ≤ 4 * c.size := by
  unfold body
  refine .bind (statement_size b c) ?_
  rintro ⟨st, c₁, h₁⟩ h
  exact .pure h
termination_by 4 * c.size + 2

theorem statements_size (b : Bool) (c : Cursor) :
    Read.Ensures (statements s b c) fun t =>
      Stmt.sizeOfAll t.value + 4 * t.rest.size ≤ 4 * c.size := by
  unfold statements
  refine .bind (statement_size b c) ?_
  rintro ⟨st, c₁, h₁⟩ h
  have hone : Stmt.sizeOfAll st.toList = (st.getD .empty).size := by
    cases st <;> simp [Stmt.sizeOfAll, Stmt.size, Stmt.empty]
  dsimp only at h
  refine .step fun o => ?_
  rcases o with _ | ⟨_, c₂, h₂⟩
  · refine .pure ?_
    show Stmt.sizeOfAll st.toList + 4 * c₁.size ≤ 4 * c.size
    rwa [hone]
  · refine .bind (statements_size b c₂) ?_
    rintro ⟨ss, c₃, h₃⟩ hss
    refine .pure ?_
    show Stmt.sizeOfAll (st.toList ++ ss) + 4 * c₃.size ≤ 4 * c.size
    dsimp only at hss
    rw [Stmt.sizeOfAll_append, hone]
    omega
termination_by 4 * c.size + 2

theorem compound_size (b : Bool) (c : Cursor) :
    Read.Ensures (compound s b c) fun t =>
      Stmt.sizeOfAll t.value + 4 * t.rest.size ≤ 4 * c.size := by
  unfold compound
  refine .step ?_
  rintro ⟨_, c₁, h₁⟩
  refine .bind (statements_size b c₁) ?_
  rintro ⟨ss, c₂, h₂⟩ hss
  refine .step ?_
  rintro ⟨_, c₃, h₃⟩
  refine .pure ?_
  show Stmt.sizeOfAll ss + 4 * c₃.size ≤ 4 * c.size
  dsimp only at hss h₃
  omega
termination_by 4 * c.size

end

end Grammar

/-- The code of a body evaluates no more than four expressions for each character of the text. -/
theorem Program.ofText_sizes {text name : String} {p : Program} (h : ofText text name = .ok p) :
    p.Meets Ty.WellFormed fun ss => Stmt.sizeOfAll ss ≤ 4 * text.length := by
  have hinherits : Grammar.Inherits text.length Ty.WellFormed
      fun ss => Stmt.sizeOfAll ss ≤ 4 * text.length := by
    refine ⟨fun _ => id, ?_, ?_⟩
    · intro s c hs hc _
      have hsound := hs.sound_of_meets fun _ => id
      exact (Grammar.typeName_wellFormed hsound hc).mono fun _ ht => ht.1
    · intro s c _ _ hN
      exact (Grammar.compound_size false c).mono fun t ht => by omega
  exact ofText_meets hinherits h

end MiniPascal
