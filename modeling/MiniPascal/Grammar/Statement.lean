import MiniPascal.Grammar.TypeName

/-! Reading statements. An absent statement is read as `none` and stands for the empty statement
where one is needed. -/

namespace MiniPascal.Grammar

open Cursor

/-- A variable with its selectors, as the place to assign to. -/
def designator (scopes : Scopes) (name : Located Name) (c : Cursor) : Read (Passed c Expr) := do
  let ⟨d, storage⟩ ← Read.checked (scopes.lookup name)
  match d with
  | .var _ t => selectors scopes (.var name.position t name.value storage) c
  | .const .. => reject name.position (.assignedConstant name.value)
  | .routine _ | .type .. => reject name.position (.unexpectedType (.notVariable name.value))

/-- An assignment token: plain, or with the operator to apply first. -/
def assignment? : Token.Kind → Option (Option BinOp)
  | .symbol .assign => some none
  | .symbol .plusAssign => some (some .add)
  | .symbol .minusAssign => some (some .sub)
  | .symbol .timesAssign => some (some .mul)
  | .symbol .slashAssign => some (some .divide)
  | _ => none

/-- The value that an assignment stores. -/
def assignedValue (op : Option BinOp) (target value : Expr) (p : Position) : Read Expr :=
  match op with
  | none => .ok value
  | some op => Read.checked (Expr.checkBinary op target value p)

/-- An assignment to the variable of a name. -/
def assignment (scopes : Scopes) (name : Located Name) (c : Cursor) : Read (Passed c Stmt) := do
  let ⟨target, c₁, h₁⟩ ← designator scopes name c
  match ← c₁.accept assignment? with
  | none => c₁.missing (.symbol .assign)
  | some ⟨(op, token), c₂, h₂⟩ =>
    let ⟨value, c₃, h₃⟩ ← expression scopes c₂
    let value ← assignedValue op target value token.position
    Read.checked (Typing.checkAssignable target.type value "in assignment")
    return Taken.mk (.assign target value) c₃ h₃ |>.after h₂ |>.past h₁ |>.passed

/-- A call of the routine of a name. -/
def callStatement (scopes : Scopes) (name : Located Name) (c : Cursor) :
    Read (Passed c Stmt) := do
  let routine ← Read.checked (scopes.lookupRoutine name)
  let ⟨args, c₁, h₁⟩ ← arguments scopes name routine.paramTypes c
  return ⟨.call name.value routine.symbol args routine.paramTypes routine.returns, c₁, h₁⟩

/-- What is written: a string, or an expression of a scalar type. -/
def writeArg (scopes : Scopes) (c : Cursor) : Read (Taken c WriteArg) := do
  if c.current.kind = .string then
    let ⟨token, c₁, h₁⟩ ← c.expect .string
    return ⟨.text token.value, c₁, h₁⟩
  else
    let ⟨e, c₁, h₁⟩ ← expression scopes c
    if e.type.scalar?.isSome then return ⟨.value e, c₁, h₁⟩
    else reject e.position (.unexpectedType (.written e.type))

/-- Things to write with commas between them. -/
def writeArgs (scopes : Scopes) (c : Cursor) : Read (Taken c (List WriteArg)) := do
  let ⟨arg, c₁, h₁⟩ ← writeArg scopes c
  match ← c₁.acceptSymbol .comma with
  | none => return ⟨[arg], c₁, h₁⟩
  | some ⟨_, c₂, h₂⟩ =>
    let ⟨args, c₃, h₃⟩ ← writeArgs scopes c₂
    return Taken.mk (arg :: args) c₃ h₃ |>.after h₂ |>.after h₁
termination_by c.size

/-- The rest of a statement that writes. -/
def writeStatement (scopes : Scopes) (newline : Bool) (c : Cursor) : Read (Passed c Stmt) := do
  match ← c.acceptSymbol .openParen with
  | none => return .stay (.write newline [])
  | some ⟨_, c₁, h₁⟩ =>
    if c₁.sees .closeParen then
      let ⟨_, c₂, h₂⟩ ← c₁.symbol .closeParen
      return Taken.mk (.write newline []) c₂ h₂ |>.after h₁ |>.passed
    else
      let ⟨args, c₂, h₂⟩ ← writeArgs scopes c₁
      let ⟨_, c₃, h₃⟩ ← c₂.symbol .closeParen
      return Taken.mk (.write newline args) c₃ h₃ |>.after h₂ |>.after h₁ |>.passed

/-- Whether a name that nothing visible has is that of a writing statement, and whether that one
ends the line. -/
def writes? (name : Name) : Option Bool :=
  if name.canonical = "write" then some false
  else if name.canonical = "writeln" then some true
  else none

/-- A statement that starts with a name. -/
def namedStatement (scopes : Scopes) (name : Located Name) (c : Cursor) :
    Read (Passed c Stmt) := do
  match scopes.lookup name, writes? name.value with
  | .error _, some newline => writeStatement scopes newline c
  | .ok ⟨.routine _, _⟩, _ => callStatement scopes name c
  | _, _ =>
    if c.sees .openParen then callStatement scopes name c else assignment scopes name c

/-- The keyword of a transition. -/
def transition? : Token.Kind → Option Transition
  | .keyword .kwBreak => some .breakLoop
  | .keyword .kwContinue => some .continueLoop
  | _ => none

/-- The keyword that writes a transition. -/
def transitionKeyword : Transition → Keyword
  | .breakLoop => .kwBreak
  | .continueLoop => .kwContinue

/-- A condition, which has to be a truth value. -/
def condition (scopes : Scopes) (c : Cursor) : Read (Taken c Expr) := do
  let ⟨e, c₁, h₁⟩ ← expression scopes c
  Read.checked (Typing.checkCondition e)
  return ⟨e, c₁, h₁⟩

/-- The start or the end of a counting loop, which has to be an integer. -/
def loopLimit (scopes : Scopes) (context : String) (c : Cursor) : Read (Taken c Expr) := do
  let ⟨e, c₁, h₁⟩ ← expression scopes c
  Read.checked (Typing.checkAssignable .integer e context)
  return ⟨e, c₁, h₁⟩

/-- The counter of a loop. -/
def loopCounter (scopes : Scopes) (c : Cursor) : Read (Taken c Expr) := do
  let ⟨name, c₁, h₁⟩ ← c.identifier
  let ⟨target, c₂, h₂⟩ ← designator scopes name c₁
  if target.type.isInteger then return Passed.mk target c₂ h₂ |>.after h₁
  else reject target.position (.unexpectedType (.loopCounter target.type))

/-- The head of a counting loop behind `for`: the counter, its first value and its bound. -/
def loopHead (scopes : Scopes) (c : Cursor) : Read (Taken c (Expr × Expr × Expr)) := do
  let ⟨target, c₁, h₁⟩ ← loopCounter scopes c
  let ⟨_, c₂, h₂⟩ ← c₁.symbol .assign
  let ⟨value, c₃, h₃⟩ ← loopLimit scopes "as loop start" c₂
  if c₃.seesKeyword .kwDownto then reject c₃.current.position .downwardLoop
  else
    let ⟨_, c₄, h₄⟩ ← c₃.keyword .kwTo
    let ⟨bound, c₅, h₅⟩ ← loopLimit scopes "as loop bound" c₄
    return Taken.mk (target, value, bound) c₅ h₅ |>.after h₄ |>.after h₃ |>.after h₂ |>.after h₁

mutual

/-- A statement, or nothing where none starts. -/
def statement (scopes : Scopes) (inLoop : Bool) (c : Cursor) : Read (Passed c (Option Stmt)) := do
  match c.current.kind with
  | .keyword .kwBegin =>
    let ⟨body, c₁, h₁⟩ ← compound scopes inLoop c
    return Taken.mk (some (.block body)) c₁ h₁ |>.passed
  | .keyword .kwIf =>
    let ⟨_, c₁, h₁⟩ ← c.keyword .kwIf
    let ⟨test, c₂, h₂⟩ ← condition scopes c₁
    let ⟨_, c₃, h₃⟩ ← c₂.keyword .kwThen
    let ⟨yes, c₄, h₄⟩ ← body scopes inLoop c₃
    match ← c₄.acceptKeyword .kwElse with
    | none =>
      return Passed.mk (some (.ifElse test yes none)) c₄ h₄ |>.after h₃ |>.after h₂ |>.after h₁
        |>.passed
    | some ⟨_, c₅, h₅⟩ =>
      let ⟨no, c₆, h₆⟩ ← body scopes inLoop c₅
      return Passed.mk (some (.ifElse test yes (some no))) c₆ h₆ |>.after h₅ |>.past h₄ |>.after h₃
        |>.after h₂ |>.after h₁ |>.passed
  | .keyword .kwWhile =>
    let ⟨_, c₁, h₁⟩ ← c.keyword .kwWhile
    let ⟨test, c₂, h₂⟩ ← condition scopes c₁
    let ⟨_, c₃, h₃⟩ ← c₂.keyword .kwDo
    let ⟨s, c₄, h₄⟩ ← body scopes true c₃
    return Passed.mk (some (.while test s)) c₄ h₄ |>.after h₃ |>.after h₂ |>.after h₁ |>.passed
  | .keyword .kwRepeat =>
    let ⟨_, c₁, h₁⟩ ← c.keyword .kwRepeat
    let ⟨ss, c₂, h₂⟩ ← statements scopes true c₁
    let ⟨_, c₃, h₃⟩ ← c₂.keyword .kwUntil
    let ⟨test, c₄, h₄⟩ ← condition scopes c₃
    return Taken.mk (some (.repeatUntil (.block ss) test)) c₄ h₄ |>.after h₃ |>.past h₂ |>.after h₁
      |>.passed
  | .keyword .kwFor =>
    let ⟨token, c₁, h₁⟩ ← c.keyword .kwFor
    let ⟨(target, value, bound), c₂, h₂⟩ ← loopHead scopes c₁
    let ⟨_, c₃, h₃⟩ ← c₂.keyword .kwDo
    let ⟨s, c₄, h₄⟩ ← body scopes true c₃
    return Passed.mk (some (.forTo token.position target value bound s)) c₄ h₄ |>.after h₃
      |>.after h₂ |>.after h₁ |>.passed
  | .identifier =>
    let ⟨name, c₁, h₁⟩ ← c.identifier
    let ⟨s, c₂, h₂⟩ ← namedStatement scopes name c₁
    return Passed.mk (some s) c₂ h₂ |>.after h₁ |>.passed
  | _ =>
    match ← c.accept transition? with
    | none => return .stay none
    | some ⟨(kind, token), c₁, h₁⟩ =>
      if inLoop then return Taken.mk (some (.transition kind token.position)) c₁ h₁ |>.passed
      else reject token.position (.outsideLoop (transitionKeyword kind))
termination_by 4 * c.size + 1

/-- A statement, where nothing stands for the empty one. -/
def body (scopes : Scopes) (inLoop : Bool) (c : Cursor) : Read (Passed c Stmt) := do
  let ⟨s, c₁, h₁⟩ ← statement scopes inLoop c
  return ⟨s.getD .empty, c₁, h₁⟩
termination_by 4 * c.size + 2

/-- Statements with semicolons between them; absent ones are left out. -/
def statements (scopes : Scopes) (inLoop : Bool) (c : Cursor) : Read (Passed c (List Stmt)) := do
  let ⟨s, c₁, h₁⟩ ← statement scopes inLoop c
  match ← c₁.acceptSymbol .semicolon with
  | none => return ⟨s.toList, c₁, h₁⟩
  | some ⟨_, c₂, h₂⟩ =>
    let ⟨ss, c₃, h₃⟩ ← statements scopes inLoop c₂
    return Passed.mk (s.toList ++ ss) c₃ h₃ |>.after h₂ |>.past h₁ |>.passed
termination_by 4 * c.size + 2

/-- Statements between `begin` and `end`. -/
def compound (scopes : Scopes) (inLoop : Bool) (c : Cursor) : Read (Taken c (List Stmt)) := do
  let ⟨_, c₁, h₁⟩ ← c.keyword .kwBegin
  let ⟨ss, c₂, h₂⟩ ← statements scopes inLoop c₁
  let ⟨_, c₃, h₃⟩ ← c₂.keyword .kwEnd
  return Taken.mk ss c₃ h₃ |>.past h₂ |>.after h₁
termination_by 4 * c.size

end

end MiniPascal.Grammar
