import MiniPascal.Grammar.Cursor
import MiniPascal.Scope.Stack
import MiniPascal.Typing.Constant

namespace MiniPascal.Grammar

open Cursor

/-- The levels of binary operators, from the loosest to the tightest. -/
inductive Precedence where
  | relational | additive | multiplicative
  deriving DecidableEq, Repr

namespace Precedence

/-- The binary operator of a level that a token is. -/
def operator? : Precedence → Token.Kind → Option BinOp
  | relational, .symbol .equal => some .equal
  | relational, .symbol .notEqual => some .notEqual
  | relational, .symbol .less => some .less
  | relational, .symbol .lessEqual => some .lessEqual
  | relational, .symbol .greater => some .greater
  | relational, .symbol .greaterEqual => some .greaterEqual
  | additive, .symbol .plus => some .add
  | additive, .symbol .minus => some .sub
  | additive, .keyword .kwOr => some .or
  | multiplicative, .symbol .times => some .mul
  | multiplicative, .symbol .slash => some .divide
  | multiplicative, .keyword .kwDiv => some .div
  | multiplicative, .keyword .kwMod => some .mod
  | multiplicative, .keyword .kwAnd => some .and
  | _, _ => none

/-- How many levels there are from this one to the tightest. -/
def height : Precedence → Nat
  | relational => 3
  | additive => 2
  | multiplicative => 1

theorem height_le (p : Precedence) : p.height ≤ 3 := by cases p <;> decide

end Precedence

/-- The unary operator that a token is. -/
def unaryOperator? : Token.Kind → Option UnaryOp
  | .symbol .plus => some .plus
  | .symbol .minus => some .minus
  | .keyword .kwNot => some .not
  | _ => none

/-- The truth value that a token is. -/
def truthValue? : Token.Kind → Option Bool
  | .keyword .kwTrue => some true
  | .keyword .kwFalse => some false
  | _ => none

/-- The largest integer literal of an expression. -/
def literalLimit : Nat := 0x7fffffff

/-- The expression of a number token. -/
def literal (token : Token) : Read Expr :=
  match token.literal with
  | .integer n =>
    if n ≤ literalLimit then .ok (.int token.position (UInt64.ofNat n))
    else .error ⟨token.position, .lexical (.integerOverflow token.text)⟩
  | .fraction x | .scientific x => .ok (.double token.position x)
  | _ => .error ⟨token.position, .unexpected token.describe⟩

/-- The number in sight. -/
def number (c : Cursor) : Read (Taken c Expr) := do
  let ⟨token, c₁, h₁⟩ ← c.expect c.current.kind
  let e ← literal token
  return ⟨e, c₁, h₁⟩

/-- Checks the arguments of a call against the types of the parameters. -/
def checkArguments (name : Located Name) (params : List Ty) (args : List Expr) : Read Unit :=
  if args.length = params.length then
    (args.zip params).forM fun (arg, param) =>
      Read.checked (Typing.checkAssignable param arg "as argument")
  else
    .error ⟨name.position, .semantic (.argumentCount name.value params.length args.length)⟩

/-- Fails with an error in the meaning of a program. -/
def reject {α : Type} (p : Position) (e : SemanticError) : Read α := .error ⟨p, .semantic e⟩

mutual

/-- An expression. -/
def expression (scopes : Scopes) (c : Cursor) : Read (Taken c Expr) :=
  operation scopes .relational c
termination_by 16 * c.size + 11
decreasing_by simp only [Precedence.height]; omega

/-- An operand of a level: an operation of the next tighter one. -/
def operand (scopes : Scopes) (p : Precedence) (c : Cursor) : Read (Taken c Expr) :=
  match p with
  | .relational => operation scopes .additive c
  | .additive => operation scopes .multiplicative c
  | .multiplicative => unary scopes c
termination_by 16 * c.size + 2 * p.height + 3
decreasing_by all_goals simp only [Precedence.height]; omega

/-- Operands of a level with its operators between them. -/
def operation (scopes : Scopes) (p : Precedence) (c : Cursor) : Read (Taken c Expr) := do
  let ⟨left, c₁, h₁⟩ ← operand scopes p c
  let ⟨e, c₂, h₂⟩ ← operations scopes p left c₁
  return Passed.mk e c₂ h₂ |>.after h₁
termination_by 16 * c.size + 2 * p.height + 4

/-- The operators of a level behind a first operand, each with its second. -/
def operations (scopes : Scopes) (p : Precedence) (left : Expr) (c : Cursor) :
    Read (Passed c Expr) := do
  match ← c.accept p.operator? with
  | none => return .stay left
  | some ⟨(op, token), c₁, h₁⟩ =>
    let ⟨right, c₂, h₂⟩ ← operand scopes p c₁
    let e ← Read.checked (Expr.checkBinary op left right token.position)
    let ⟨e, c₃, h₃⟩ ← operations scopes p e c₂
    return Passed.mk e c₃ h₃ |>.after h₂ |>.after h₁ |>.passed
termination_by 16 * c.size
decreasing_by all_goals have := p.height_le; omega

/-- Unary operators in front of a primary expression. -/
def unary (scopes : Scopes) (c : Cursor) : Read (Taken c Expr) := do
  match ← c.accept unaryOperator? with
  | none => primary scopes c
  | some ⟨(op, token), c₁, h₁⟩ =>
    let ⟨operand, c₂, h₂⟩ ← unary scopes c₁
    let e ← Read.checked (Expr.checkUnary op operand token.position)
    return Taken.mk e c₂ h₂ |>.after h₁
termination_by 16 * c.size + 4

/-- A literal, a name with what belongs to it, or an expression in parentheses. -/
def primary (scopes : Scopes) (c : Cursor) : Read (Taken c Expr) := do
  match c.current.kind with
  | .integer | .double => number c
  | .keyword k =>
    match truthValue? (.keyword k) with
    | some b =>
      let ⟨token, c₁, h₁⟩ ← c.keyword k
      return ⟨.bool token.position b, c₁, h₁⟩
    | none => c.unexpected
  | .symbol .openParen =>
    let ⟨_, c₁, h₁⟩ ← c.symbol .openParen
    let ⟨e, c₂, h₂⟩ ← expression scopes c₁
    let ⟨_, c₃, h₃⟩ ← c₂.symbol .closeParen
    return Taken.mk e c₃ h₃ |>.after h₂ |>.after h₁
  | .identifier =>
    let ⟨name, c₁, h₁⟩ ← c.identifier
    let ⟨e, c₂, h₂⟩ ← named scopes name c₁
    return Passed.mk e c₂ h₂ |>.after h₁
  | _ => c.unexpected
termination_by 16 * c.size + 3

/-- What a name in an expression stands for: the value of a variable with its selectors, a constant,
or a call. -/
def named (scopes : Scopes) (name : Located Name) (c : Cursor) : Read (Passed c Expr) := do
  if c.sees .openParen then callOf scopes name c
  else
    let ⟨d, storage⟩ ← Read.checked (scopes.lookup name)
    match d with
    | .var _ t => selectors scopes (.var name.position t name.value storage) c
    | .const _ value =>
      let constant ← Read.checked value.fold
      return .stay (.ofConstant constant name.position)
    | .routine _ => callOf scopes name c
    | .type .. => .error ⟨name.position, .unexpected (quoted name.value.spelling)⟩
termination_by 16 * c.size + 2

/-- A call of the function of a name. -/
def callOf (scopes : Scopes) (name : Located Name) (c : Cursor) : Read (Passed c Expr) := do
  let routine ← Read.checked (scopes.lookupRoutine name)
  match routine.returns with
  | none => reject name.position (.unexpectedType (.procedureAsValue name.value))
  | some t =>
    let ⟨args, c₁, h₁⟩ ← arguments scopes name routine.paramTypes c
    return ⟨.call name.position t name.value routine.symbol args routine.paramTypes, c₁, h₁⟩
termination_by 16 * c.size + 1

/-- The arguments of a call, which match the parameters. -/
def arguments (scopes : Scopes) (name : Located Name) (params : List Ty) (c : Cursor) :
    Read (Passed c (List Expr)) := do
  match ← c.acceptSymbol .openParen with
  | none =>
    checkArguments name params []
    return .stay []
  | some ⟨_, c₁, h₁⟩ =>
    if c₁.sees .closeParen then
      let ⟨_, c₂, h₂⟩ ← c₁.symbol .closeParen
      checkArguments name params []
      return Taken.mk [] c₂ h₂ |>.after h₁ |>.passed
    else
      let ⟨args, c₂, h₂⟩ ← expressions scopes c₁
      let ⟨_, c₃, h₃⟩ ← c₂.symbol .closeParen
      checkArguments name params args
      return Taken.mk args c₃ h₃ |>.after h₂ |>.after h₁ |>.passed
termination_by 16 * c.size

/-- Expressions with commas between them. -/
def expressions (scopes : Scopes) (c : Cursor) : Read (Taken c (List Expr)) := do
  let ⟨e, c₁, h₁⟩ ← expression scopes c
  match ← c₁.acceptSymbol .comma with
  | none => return ⟨[e], c₁, h₁⟩
  | some ⟨_, c₂, h₂⟩ =>
    let ⟨es, c₃, h₃⟩ ← expressions scopes c₂
    return Taken.mk (e :: es) c₃ h₃ |>.after h₂ |>.after h₁
termination_by 16 * c.size + 12

/-- The indices and fields selected from a variable. A point behind anything but a record selects
nothing. -/
def selectors (scopes : Scopes) (e : Expr) (c : Cursor) : Read (Passed c Expr) := do
  match ← c.acceptSymbol .openSquare with
  | some ⟨token, c₁, h₁⟩ =>
    let ⟨e, c₂, h₂⟩ ← indices scopes e token.position c₁
    let ⟨_, c₃, h₃⟩ ← c₂.symbol .closeSquare
    let ⟨e, c₄, h₄⟩ ← selectors scopes e c₃
    return Passed.mk e c₄ h₄ |>.after h₃ |>.after h₂ |>.after h₁ |>.passed
  | none =>
    if e.type.isRecord then
      match ← c.acceptSymbol .dot with
      | some ⟨token, c₁, h₁⟩ =>
        let ⟨name, c₂, h₂⟩ ← c₁.identifier
        let e ← Read.checked (Expr.checkField e name.value token.position)
        let ⟨e, c₃, h₃⟩ ← selectors scopes e c₂
        return Passed.mk e c₃ h₃ |>.after h₂ |>.after h₁ |>.passed
      | none => return .stay e
    else return .stay e
termination_by 16 * c.size

/-- Indices with commas between them; each selects from what those before it have selected, and has
the position of the bracket or comma in front of it. -/
def indices (scopes : Scopes) (e : Expr) (p : Position) (c : Cursor) : Read (Taken c Expr) := do
  let ⟨idx, c₁, h₁⟩ ← expression scopes c
  let e ← Read.checked (Expr.checkIndex e idx p)
  match ← c₁.acceptSymbol .comma with
  | none => return ⟨e, c₁, h₁⟩
  | some ⟨token, c₂, h₂⟩ =>
    let ⟨e, c₃, h₃⟩ ← indices scopes e token.position c₂
    return Taken.mk e c₃ h₃ |>.after h₂ |>.after h₁
termination_by 16 * c.size + 12

end

end MiniPascal.Grammar
