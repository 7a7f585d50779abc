import MiniPascal.Proofs.Trace.Cursor

namespace MiniPascal

namespace Traced

open Cursor Grammar

def number (c : Cursor) : Traced (Taken c Expr) := do
  enter .number c
  let ⟨token, c₁, h₁⟩ ← expect c c.current.kind
  let e ← literal token
  return ⟨e, c₁, h₁⟩

mutual

def expression (scopes : Scopes) (c : Cursor) : Traced (Taken c Expr) := do
  enter .expression c
  operation scopes .relational c
termination_by 16 * c.size + 11
decreasing_by simp only [Precedence.height]; omega

def operand (scopes : Scopes) (p : Precedence) (c : Cursor) : Traced (Taken c Expr) := do
  enter (.operand p) c
  match p with
  | .relational => operation scopes .additive c
  | .additive => operation scopes .multiplicative c
  | .multiplicative => unary scopes c
termination_by 16 * c.size + 2 * p.height + 3
decreasing_by all_goals simp only [Precedence.height]; omega

def operation (scopes : Scopes) (p : Precedence) (c : Cursor) : Traced (Taken c Expr) := do
  enter (.operation p) c
  let ⟨left, c₁, h₁⟩ ← operand scopes p c
  let ⟨e, c₂, h₂⟩ ← operations scopes p left c₁
  return Passed.mk e c₂ h₂ |>.after h₁
termination_by 16 * c.size + 2 * p.height + 4

def operations (scopes : Scopes) (p : Precedence) (left : Expr) (c : Cursor) :
    Traced (Passed c Expr) := do
  enter (.operations p) c
  match ← accept c p.operator? with
  | none => return .stay left
  | some ⟨(op, token), c₁, h₁⟩ =>
    let ⟨right, c₂, h₂⟩ ← operand scopes p c₁
    let e ← Read.checked (Expr.checkBinary op left right token.position)
    let ⟨e, c₃, h₃⟩ ← operations scopes p e c₂
    return Passed.mk e c₃ h₃ |>.after h₂ |>.after h₁ |>.passed
termination_by 16 * c.size
decreasing_by all_goals have := p.height_le; omega

def unary (scopes : Scopes) (c : Cursor) : Traced (Taken c Expr) := do
  enter .unary c
  match ← accept c unaryOperator? with
  | none => primary scopes c
  | some ⟨(op, token), c₁, h₁⟩ =>
    let ⟨operand, c₂, h₂⟩ ← unary scopes c₁
    let e ← Read.checked (Expr.checkUnary op operand token.position)
    return Taken.mk e c₂ h₂ |>.after h₁
termination_by 16 * c.size + 4

def primary (scopes : Scopes) (c : Cursor) : Traced (Taken c Expr) := do
  enter .primary c
  match c.current.kind with
  | .integer | .double => number c
  | .keyword k =>
    match truthValue? (.keyword k) with
    | some b =>
      let ⟨token, c₁, h₁⟩ ← keyword c k
      return ⟨.bool token.position b, c₁, h₁⟩
    | none => c.unexpected
  | .symbol .openParen =>
    let ⟨_, c₁, h₁⟩ ← symbol c .openParen
    let ⟨e, c₂, h₂⟩ ← expression scopes c₁
    let ⟨_, c₃, h₃⟩ ← symbol c₂ .closeParen
    return Taken.mk e c₃ h₃ |>.after h₂ |>.after h₁
  | .identifier =>
    let ⟨name, c₁, h₁⟩ ← identifier c
    let ⟨e, c₂, h₂⟩ ← named scopes name c₁
    return Passed.mk e c₂ h₂ |>.after h₁
  | _ => c.unexpected
termination_by 16 * c.size + 3

def named (scopes : Scopes) (name : Located Name) (c : Cursor) : Traced (Passed c Expr) := do
  enter .named c
  if c.sees .openParen then callOf scopes name c
  else
    let ⟨d, storage⟩ ← Read.checked (scopes.lookup name)
    match d with
    | .var _ t => selectors scopes (.var name.position t name.value storage) c
    | .const _ value =>
      let constant ← Read.checked value.fold
      return .stay (.ofConstant constant name.position)
    | .routine _ => callOf scopes name c
    | .type .. =>
      (Except.error ⟨name.position, .unexpected (quoted name.value.spelling)⟩ :
        Read (Passed c Expr))
termination_by 16 * c.size + 2

def callOf (scopes : Scopes) (name : Located Name) (c : Cursor) : Traced (Passed c Expr) := do
  enter .callOf c
  let routine ← Read.checked (scopes.lookupRoutine name)
  match routine.returns with
  | none => (reject name.position (.unexpectedType (.procedureAsValue name.value)) : Read _)
  | some t =>
    let ⟨args, c₁, h₁⟩ ← arguments scopes name routine.paramTypes c
    return ⟨.call name.position t name.value routine.symbol args routine.paramTypes, c₁, h₁⟩
termination_by 16 * c.size + 1

def arguments (scopes : Scopes) (name : Located Name) (params : List Ty) (c : Cursor) :
    Traced (Passed c (List Expr)) := do
  enter .arguments c
  match ← acceptSymbol c .openParen with
  | none =>
    checkArguments name params []
    return .stay []
  | some ⟨_, c₁, h₁⟩ =>
    if c₁.sees .closeParen then
      let ⟨_, c₂, h₂⟩ ← symbol c₁ .closeParen
      checkArguments name params []
      return Taken.mk [] c₂ h₂ |>.after h₁ |>.passed
    else
      let ⟨args, c₂, h₂⟩ ← expressions scopes c₁
      let ⟨_, c₃, h₃⟩ ← symbol c₂ .closeParen
      checkArguments name params args
      return Taken.mk args c₃ h₃ |>.after h₂ |>.after h₁ |>.passed
termination_by 16 * c.size

def expressions (scopes : Scopes) (c : Cursor) : Traced (Taken c (List Expr)) := do
  enter .expressions c
  let ⟨e, c₁, h₁⟩ ← expression scopes c
  match ← acceptSymbol c₁ .comma with
  | none => return ⟨[e], c₁, h₁⟩
  | some ⟨_, c₂, h₂⟩ =>
    let ⟨es, c₃, h₃⟩ ← expressions scopes c₂
    return Taken.mk (e :: es) c₃ h₃ |>.after h₂ |>.after h₁
termination_by 16 * c.size + 12

def selectors (scopes : Scopes) (e : Expr) (c : Cursor) : Traced (Passed c Expr) := do
  enter .selectors c
  match ← acceptSymbol c .openSquare with
  | some ⟨token, c₁, h₁⟩ =>
    let ⟨e, c₂, h₂⟩ ← indices scopes e token.position c₁
    let ⟨_, c₃, h₃⟩ ← symbol c₂ .closeSquare
    let ⟨e, c₄, h₄⟩ ← selectors scopes e c₃
    return Passed.mk e c₄ h₄ |>.after h₃ |>.after h₂ |>.after h₁ |>.passed
  | none =>
    if e.type.isRecord then
      match ← acceptSymbol c .dot with
      | some ⟨token, c₁, h₁⟩ =>
        let ⟨name, c₂, h₂⟩ ← identifier c₁
        let e ← Read.checked (Expr.checkField e name.value token.position)
        let ⟨e, c₃, h₃⟩ ← selectors scopes e c₂
        return Passed.mk e c₃ h₃ |>.after h₂ |>.after h₁ |>.passed
      | none => return .stay e
    else return .stay e
termination_by 16 * c.size

def indices (scopes : Scopes) (e : Expr) (p : Position) (c : Cursor) : Traced (Taken c Expr) := do
  enter .indices c
  let ⟨idx, c₁, h₁⟩ ← expression scopes c
  let e ← Read.checked (Expr.checkIndex e idx p)
  match ← acceptSymbol c₁ .comma with
  | none => return ⟨e, c₁, h₁⟩
  | some ⟨token, c₂, h₂⟩ =>
    let ⟨e, c₃, h₃⟩ ← indices scopes e token.position c₂
    return Taken.mk e c₃ h₃ |>.after h₂ |>.after h₁
termination_by 16 * c.size + 12

end

end Traced

namespace Traces

open Cursor Grammar Precedence

theorem number (c : Cursor) :
    Traces (Grammar.number c) (Traced.number c) (Rule.number.top c.size)
      fun t => 64 * t.rest.size + 64 := by
  refine enter ?_
  refine taken (expect c c.current.kind) ?_
  intro token c₁ h₁
  refine check ?_
  intro e
  exact pure (Nat.le_refl _)

variable (s : Scopes)

-- The measures are those of the rules, whose calls are the induction hypotheses.
mutual

theorem expression (c : Cursor) :
    Traces (Grammar.expression s c) (Traced.expression s c) (Rule.expression.top c.size)
      fun t => 64 * t.rest.size + 47 := by
  rw [Grammar.expression, Traced.expression]
  refine enter ?_
  exact (operation .relational c).within (by decide)
termination_by 16 * c.size + 11
decreasing_by simp only [Precedence.height]; omega

theorem operand (p : Precedence) (c : Cursor) :
    Traces (Grammar.operand s p c) (Traced.operand s p c) ((Rule.operand p).top c.size)
      fun t => 64 * t.rest.size + ((3 - p.height) + 48) := by
  rw [Grammar.operand.eq_def, Traced.operand.eq_def]
  refine enter ?_
  cases p with
  | relational => exact (operation .additive c).within (by decide)
  | additive => exact (operation .multiplicative c).within (by decide)
  | multiplicative => exact (unary c).within (by decide)
termination_by 16 * c.size + 2 * p.height + 3
decreasing_by all_goals simp only [Precedence.height]; omega

theorem operation (p : Precedence) (c : Cursor) :
    Traces (Grammar.operation s p c) (Traced.operation s p c) ((Rule.operation p).top c.size)
      fun t => 64 * t.rest.size + ((3 - p.height) + 47) := by
  rw [Grammar.operation, Traced.operation]
  refine enter ?_
  refine taken ((operand p c).within (Nat.le_refl _)) ?_
  intro left c₁ h₁
  refine passed ((operations p left c₁).within (Nat.le_refl _)) ?_
  intro e c₂ h₂
  exact pure (Nat.le_refl _)
termination_by 16 * c.size + 2 * p.height + 4

theorem operations (p : Precedence) (left : Expr) (c : Cursor) :
    Traces (Grammar.operations s p left c) (Traced.operations s p left c)
      ((Rule.operations p).top c.size) fun t => 64 * t.rest.size + ((3 - p.height) + 47) := by
  rw [Grammar.operations, Traced.operations]
  refine enter ?_
  refine accepted (accept p.operator?) ?_ ?_
  · exact pure (Nat.le_refl _)
  · intro (op, token) c₁ h₁
    refine taken ((operand p c₁).within (by cases p <;> decide)) ?_
    intro right c₂ h₂
    refine check ?_
    intro e
    -- the loop starts again, behind an operator and an operand
    refine passed ((operations p e c₂).within (Nat.le_refl _)) ?_
    intro e c₃ h₃
    exact pure (Nat.le_refl _)
termination_by 16 * c.size
decreasing_by all_goals have := p.height_le; omega

theorem unary (c : Cursor) :
    Traces (Grammar.unary s c) (Traced.unary s c) (Rule.unary.top c.size)
      fun t => 64 * t.rest.size + 50 := by
  rw [Grammar.unary, Traced.unary]
  refine enter ?_
  refine accepted (accept unaryOperator?) ?_ ?_
  · exact (primary c).within (by decide)
  · intro (op, token) c₁ h₁
    refine taken ((unary c₁).within (by decide)) ?_
    intro operand c₂ h₂
    refine check ?_
    intro e
    exact pure (Nat.le_refl _)
termination_by 16 * c.size + 4

theorem primary (c : Cursor) :
    Traces (Grammar.primary s c) (Traced.primary s c) (Rule.primary.top c.size)
      fun t => 64 * t.rest.size + 50 := by
  rw [Grammar.primary, Traced.primary]
  refine enter ?_
  generalize c.current.kind = kind
  cases kind with
  | integer | double =>
    exact (number c).mono (Nat.add_le_add_left (by decide) _) fun t =>
      Nat.add_le_add_left (by decide) _
  | keyword k =>
    dsimp only
    cases truthValue? (.keyword k) with
    | some b =>
      refine taken (keyword c k) ?_
      intro token c₁ h₁
      exact pure (Nat.add_le_add_left (by decide) _)
    | none => exact fail
  | symbol x =>
    cases x with
    | openParen =>
      refine taken (symbol c .openParen) ?_
      intro _ c₁ h₁
      refine taken ((expression c₁).within (by decide)) ?_
      intro e c₂ h₂
      refine taken (symbol c₂ .closeParen) ?_
      intro _ c₃ h₃
      exact pure (Nat.add_le_add_left (by decide) _)
    | _ => exact fail
  | identifier =>
    refine taken (identifier c) ?_
    intro name c₁ h₁
    refine passed ((named name c₁).within (by decide)) ?_
    intro e c₂ h₂
    exact pure (Nat.le_refl _)
  | _ => exact fail
termination_by 16 * c.size + 3

theorem named (name : Located Name) (c : Cursor) :
    Traces (Grammar.named s name c) (Traced.named s name c) (Rule.named.top c.size)
      fun t => 64 * t.rest.size + 50 := by
  rw [Grammar.named, Traced.named]
  refine enter ?_
  split
  · exact (callOf name c).within (by decide)
  · refine check ?_
    rintro ⟨d, storage⟩
    cases d with
    | var p t => exact (selectors _ c).within (by decide)
    | const p value =>
      refine check ?_
      intro constant
      exact pure (Nat.add_le_add_left (by decide) _)
    | type p t => exact fail
    | routine r => exact (callOf name c).within (by decide)
termination_by 16 * c.size + 2

theorem callOf (name : Located Name) (c : Cursor) :
    Traces (Grammar.callOf s name c) (Traced.callOf s name c) (Rule.callOf.top c.size)
      fun t => 64 * t.rest.size + 50 := by
  rw [Grammar.callOf, Traced.callOf]
  refine enter ?_
  refine check ?_
  intro routine
  cases routine.returns with
  | none => exact fail
  | some t =>
    refine passed ((arguments name routine.paramTypes c).within (by decide)) ?_
    intro args c₁ h₁
    exact pure (Nat.le_refl _)
termination_by 16 * c.size + 1

theorem arguments (name : Located Name) (params : List Ty) (c : Cursor) :
    Traces (Grammar.arguments s name params c) (Traced.arguments s name params c)
      (Rule.arguments.top c.size) fun t => 64 * t.rest.size + 50 := by
  rw [Grammar.arguments, Traced.arguments]
  refine enter ?_
  refine accepted (acceptSymbol .openParen) ?_ ?_
  · refine check ?_
    intro _
    exact pure (Nat.add_le_add_left (by decide) _)
  · intro _ c₁ h₁
    dsimp only
    split
    · refine taken (symbol c₁ .closeParen) ?_
      intro _ c₂ h₂
      refine check ?_
      intro _
      exact pure (Nat.add_le_add_left (by decide) _)
    · refine taken ((expressions c₁).within (by decide)) ?_
      intro args c₂ h₂
      refine taken (symbol c₂ .closeParen) ?_
      intro _ c₃ h₃
      refine check ?_
      intro _
      exact pure (Nat.add_le_add_left (by decide) _)
termination_by 16 * c.size

theorem expressions (c : Cursor) :
    Traces (Grammar.expressions s c) (Traced.expressions s c) (Rule.expressions.top c.size)
      fun t => 64 * t.rest.size + 47 := by
  rw [Grammar.expressions, Traced.expressions]
  refine enter ?_
  refine taken ((expression c).within (by decide)) ?_
  intro e c₁ h₁
  refine accepted (acceptSymbol .comma) ?_ ?_
  · exact pure (Nat.le_refl _)
  · intro _ c₂ h₂
    refine taken ((expressions c₂).within (by decide)) ?_
    intro es c₃ h₃
    exact pure (Nat.le_refl _)
termination_by 16 * c.size + 12

theorem selectors (e : Expr) (c : Cursor) :
    Traces (Grammar.selectors s e c) (Traced.selectors s e c) (Rule.selectors.top c.size)
      fun t => 64 * t.rest.size + 50 := by
  rw [Grammar.selectors, Traced.selectors]
  refine enter ?_
  refine accepted (acceptSymbol .openSquare) ?_ ?_
  · dsimp only
    split
    · refine accepted (acceptSymbol .dot) ?_ ?_
      · exact pure (Nat.le_refl _)
      · intro token c₁ h₁
        refine taken (identifier c₁) ?_
        intro name c₂ h₂
        refine check ?_
        intro e
        refine passed ((selectors e c₂).within (by decide)) ?_
        intro e c₃ h₃
        exact pure (Nat.le_refl _)
    · exact pure (Nat.le_refl _)
  · intro token c₁ h₁
    refine taken ((indices e token.position c₁).within (by decide)) ?_
    intro e c₂ h₂
    refine taken (symbol c₂ .closeSquare) ?_
    intro _ c₃ h₃
    refine passed ((selectors e c₃).within (by decide)) ?_
    intro e c₄ h₄
    exact pure (Nat.le_refl _)
termination_by 16 * c.size

theorem indices (e : Expr) (p : Position) (c : Cursor) :
    Traces (Grammar.indices s e p c) (Traced.indices s e p c) (Rule.indices.top c.size)
      fun t => 64 * t.rest.size + 47 := by
  rw [Grammar.indices, Traced.indices]
  refine enter ?_
  refine taken ((expression c).within (by decide)) ?_
  intro idx c₁ h₁
  refine check ?_
  intro e
  refine accepted (acceptSymbol .comma) ?_ ?_
  · exact pure (Nat.le_refl _)
  · intro token c₂ h₂
    refine taken ((indices e token.position c₂).within (by decide)) ?_
    intro e c₃ h₃
    exact pure (Nat.le_refl _)
termination_by 16 * c.size + 12

end

end Traces

end MiniPascal
