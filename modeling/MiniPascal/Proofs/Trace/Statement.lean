import MiniPascal.Grammar.Statement
import MiniPascal.Proofs.Trace.TypeName

namespace MiniPascal

namespace Traced

open Cursor Grammar

def designator (scopes : Scopes) (name : Located Name) (c : Cursor) : Traced (Passed c Expr) := do
  enter .designator c
  let ⟨d, storage⟩ ← Read.checked (scopes.lookup name)
  match d with
  | .var _ t => selectors scopes (.var name.position t name.value storage) c
  | .const .. => (reject name.position (.assignedConstant name.value) : Read (Passed c Expr))
  | .routine _ | .type .. =>
    (reject name.position (.unexpectedType (.notVariable name.value)) : Read (Passed c Expr))

def assignment (scopes : Scopes) (name : Located Name) (c : Cursor) : Traced (Passed c Stmt) := do
  enter .assignment c
  let ⟨target, c₁, h₁⟩ ← designator scopes name c
  match ← accept c₁ assignment? with
  | none => (c₁.missing (.symbol .assign) : Read (Passed c Stmt))
  | some ⟨(op, token), c₂, h₂⟩ =>
    let ⟨value, c₃, h₃⟩ ← expression scopes c₂
    let value ← assignedValue op target value token.position
    Read.checked (Typing.checkAssignable target.type value "in assignment")
    return Taken.mk (.assign target value) c₃ h₃ |>.after h₂ |>.past h₁ |>.passed

def callStatement (scopes : Scopes) (name : Located Name) (c : Cursor) :
    Traced (Passed c Stmt) := do
  enter .callStatement c
  let routine ← Read.checked (scopes.lookupRoutine name)
  let ⟨args, c₁, h₁⟩ ← arguments scopes name routine.paramTypes c
  return ⟨.call name.value routine.symbol args routine.paramTypes routine.returns, c₁, h₁⟩

def writeArg (scopes : Scopes) (c : Cursor) : Traced (Taken c WriteArg) := do
  enter .writeArg c
  if c.current.kind = .string then
    let ⟨token, c₁, h₁⟩ ← expect c .string
    return ⟨.text token.value, c₁, h₁⟩
  else
    let ⟨e, c₁, h₁⟩ ← expression scopes c
    if e.type.scalar?.isSome then return ⟨.value e, c₁, h₁⟩
    else (reject e.position (.unexpectedType (.written e.type)) : Read (Taken c WriteArg))

def writeArgs (scopes : Scopes) (c : Cursor) : Traced (Taken c (List WriteArg)) := do
  enter .writeArgs c
  let ⟨arg, c₁, h₁⟩ ← writeArg scopes c
  match ← acceptSymbol c₁ .comma with
  | none => return ⟨[arg], c₁, h₁⟩
  | some ⟨_, c₂, h₂⟩ =>
    let ⟨args, c₃, h₃⟩ ← writeArgs scopes c₂
    return Taken.mk (arg :: args) c₃ h₃ |>.after h₂ |>.after h₁
termination_by c.size

def writeStatement (scopes : Scopes) (newline : Bool) (c : Cursor) : Traced (Passed c Stmt) := do
  enter .writeStatement c
  match ← acceptSymbol c .openParen with
  | none => return .stay (.write newline [])
  | some ⟨_, c₁, h₁⟩ =>
    if c₁.sees .closeParen then
      let ⟨_, c₂, h₂⟩ ← symbol c₁ .closeParen
      return Taken.mk (.write newline []) c₂ h₂ |>.after h₁ |>.passed
    else
      let ⟨args, c₂, h₂⟩ ← writeArgs scopes c₁
      let ⟨_, c₃, h₃⟩ ← symbol c₂ .closeParen
      return Taken.mk (.write newline args) c₃ h₃ |>.after h₂ |>.after h₁ |>.passed

def namedStatement (scopes : Scopes) (name : Located Name) (c : Cursor) :
    Traced (Passed c Stmt) := do
  enter .namedStatement c
  match scopes.lookup name, writes? name.value with
  | .error _, some newline => writeStatement scopes newline c
  | .ok ⟨.routine _, _⟩, _ => callStatement scopes name c
  | _, _ =>
    if c.sees .openParen then callStatement scopes name c else assignment scopes name c

def condition (scopes : Scopes) (c : Cursor) : Traced (Taken c Expr) := do
  enter .condition c
  let ⟨e, c₁, h₁⟩ ← expression scopes c
  Read.checked (Typing.checkCondition e)
  return ⟨e, c₁, h₁⟩

def loopLimit (scopes : Scopes) (context : String) (c : Cursor) : Traced (Taken c Expr) := do
  enter .loopLimit c
  let ⟨e, c₁, h₁⟩ ← expression scopes c
  Read.checked (Typing.checkAssignable .integer e context)
  return ⟨e, c₁, h₁⟩

def loopCounter (scopes : Scopes) (c : Cursor) : Traced (Taken c Expr) := do
  enter .loopCounter c
  let ⟨name, c₁, h₁⟩ ← identifier c
  let ⟨target, c₂, h₂⟩ ← designator scopes name c₁
  if target.type.isInteger then return Passed.mk target c₂ h₂ |>.after h₁
  else
    (reject target.position (.unexpectedType (.loopCounter target.type)) : Read (Taken c Expr))

def loopHead (scopes : Scopes) (c : Cursor) : Traced (Taken c (Expr × Expr × Expr)) := do
  enter .loopHead c
  let ⟨target, c₁, h₁⟩ ← loopCounter scopes c
  let ⟨_, c₂, h₂⟩ ← symbol c₁ .assign
  let ⟨value, c₃, h₃⟩ ← loopLimit scopes "as loop start" c₂
  if c₃.seesKeyword .kwDownto then
    (reject c₃.current.position .downwardLoop : Read (Taken c (Expr × Expr × Expr)))
  else
    let ⟨_, c₄, h₄⟩ ← keyword c₃ .kwTo
    let ⟨bound, c₅, h₅⟩ ← loopLimit scopes "as loop bound" c₄
    return Taken.mk (target, value, bound) c₅ h₅ |>.after h₄ |>.after h₃ |>.after h₂ |>.after h₁

mutual

def statement (scopes : Scopes) (inLoop : Bool) (c : Cursor) :
    Traced (Passed c (Option Stmt)) := do
  enter .statement c
  match c.current.kind with
  | .keyword .kwBegin =>
    let ⟨body, c₁, h₁⟩ ← compound scopes inLoop c
    return Taken.mk (some (.block body)) c₁ h₁ |>.passed
  | .keyword .kwIf =>
    let ⟨_, c₁, h₁⟩ ← keyword c .kwIf
    let ⟨test, c₂, h₂⟩ ← condition scopes c₁
    let ⟨_, c₃, h₃⟩ ← keyword c₂ .kwThen
    let ⟨yes, c₄, h₄⟩ ← body scopes inLoop c₃
    match ← acceptKeyword c₄ .kwElse with
    | none =>
      return Passed.mk (some (.ifElse test yes none)) c₄ h₄ |>.after h₃ |>.after h₂ |>.after h₁
        |>.passed
    | some ⟨_, c₅, h₅⟩ =>
      let ⟨no, c₆, h₆⟩ ← body scopes inLoop c₅
      return Passed.mk (some (.ifElse test yes (some no))) c₆ h₆ |>.after h₅ |>.past h₄ |>.after h₃
        |>.after h₂ |>.after h₁ |>.passed
  | .keyword .kwWhile =>
    let ⟨_, c₁, h₁⟩ ← keyword c .kwWhile
    let ⟨test, c₂, h₂⟩ ← condition scopes c₁
    let ⟨_, c₃, h₃⟩ ← keyword c₂ .kwDo
    let ⟨s, c₄, h₄⟩ ← body scopes true c₃
    return Passed.mk (some (.while test s)) c₄ h₄ |>.after h₃ |>.after h₂ |>.after h₁ |>.passed
  | .keyword .kwRepeat =>
    let ⟨_, c₁, h₁⟩ ← keyword c .kwRepeat
    let ⟨ss, c₂, h₂⟩ ← statements scopes true c₁
    let ⟨_, c₃, h₃⟩ ← keyword c₂ .kwUntil
    let ⟨test, c₄, h₄⟩ ← condition scopes c₃
    return Taken.mk (some (.repeatUntil (.block ss) test)) c₄ h₄ |>.after h₃ |>.past h₂ |>.after h₁
      |>.passed
  | .keyword .kwFor =>
    let ⟨token, c₁, h₁⟩ ← keyword c .kwFor
    let ⟨(target, value, bound), c₂, h₂⟩ ← loopHead scopes c₁
    let ⟨_, c₃, h₃⟩ ← keyword c₂ .kwDo
    let ⟨s, c₄, h₄⟩ ← body scopes true c₃
    return Passed.mk (some (.forTo token.position target value bound s)) c₄ h₄ |>.after h₃
      |>.after h₂ |>.after h₁ |>.passed
  | .identifier =>
    let ⟨name, c₁, h₁⟩ ← identifier c
    let ⟨s, c₂, h₂⟩ ← namedStatement scopes name c₁
    return Passed.mk (some s) c₂ h₂ |>.after h₁ |>.passed
  | _ =>
    match ← accept c transition? with
    | none => return .stay none
    | some ⟨(kind, token), c₁, h₁⟩ =>
      if inLoop then return Taken.mk (some (.transition kind token.position)) c₁ h₁ |>.passed
      else
        (reject token.position (.outsideLoop (transitionKeyword kind)) :
          Read (Passed c (Option Stmt)))
termination_by 4 * c.size + 1

def body (scopes : Scopes) (inLoop : Bool) (c : Cursor) : Traced (Passed c Stmt) := do
  enter .body c
  let ⟨s, c₁, h₁⟩ ← statement scopes inLoop c
  return ⟨s.getD .empty, c₁, h₁⟩
termination_by 4 * c.size + 2

def statements (scopes : Scopes) (inLoop : Bool) (c : Cursor) :
    Traced (Passed c (List Stmt)) := do
  enter .statements c
  let ⟨s, c₁, h₁⟩ ← statement scopes inLoop c
  match ← acceptSymbol c₁ .semicolon with
  | none => return ⟨s.toList, c₁, h₁⟩
  | some ⟨_, c₂, h₂⟩ =>
    let ⟨ss, c₃, h₃⟩ ← statements scopes inLoop c₂
    return Passed.mk (s.toList ++ ss) c₃ h₃ |>.after h₂ |>.past h₁ |>.passed
termination_by 4 * c.size + 2

def compound (scopes : Scopes) (inLoop : Bool) (c : Cursor) : Traced (Taken c (List Stmt)) := do
  enter .compound c
  let ⟨_, c₁, h₁⟩ ← keyword c .kwBegin
  let ⟨ss, c₂, h₂⟩ ← statements scopes inLoop c₁
  let ⟨_, c₃, h₃⟩ ← keyword c₂ .kwEnd
  return Taken.mk ss c₃ h₃ |>.past h₂ |>.after h₁
termination_by 4 * c.size

end

end Traced

namespace Traces

open Cursor Grammar

variable (s : Scopes)

theorem designator (name : Located Name) (c : Cursor) :
    Traces (Grammar.designator s name c) (Traced.designator s name c)
      (Rule.designator.top c.size) fun t => 64 * t.rest.size + 50 := by
  refine enter ?_
  refine check ?_
  rintro ⟨d, storage⟩
  cases d with
  | var p t => exact (selectors s _ c).within (by decide)
  | const p e => exact fail
  | type p t => exact fail
  | routine r => exact fail

theorem assignment (name : Located Name) (c : Cursor) :
    Traces (Grammar.assignment s name c) (Traced.assignment s name c)
      (Rule.assignment.top c.size) fun t => 64 * t.rest.size + 47 := by
  refine enter ?_
  refine passed ((designator s name c).within (by decide)) ?_
  intro target c₁ h₁
  refine accepted (accept assignment?) ?_ ?_
  · exact fail
  · intro (op, token) c₂ h₂
    refine taken ((expression s c₂).within (by decide)) ?_
    intro value c₃ h₃
    refine check ?_
    intro value
    refine check ?_
    intro _
    exact pure (Nat.le_refl _)

theorem callStatement (name : Located Name) (c : Cursor) :
    Traces (Grammar.callStatement s name c) (Traced.callStatement s name c)
      (Rule.callStatement.top c.size) fun t => 64 * t.rest.size + 50 := by
  refine enter ?_
  refine check ?_
  intro routine
  refine passed ((arguments s name routine.paramTypes c).within (by decide)) ?_
  intro args c₁ h₁
  exact pure (Nat.le_refl _)

theorem writeArg (c : Cursor) :
    Traces (Grammar.writeArg s c) (Traced.writeArg s c) (Rule.writeArg.top c.size)
      fun t => 64 * t.rest.size + 47 := by
  refine enter ?_
  unfold Grammar.writeArg
  split
  · refine taken (expect c .string) ?_
    intro token c₁ h₁
    exact pure (Nat.add_le_add_left (by decide) _)
  · refine taken ((expression s c).within (by decide)) ?_
    intro e c₁ h₁
    dsimp only
    split
    · exact pure (Nat.le_refl _)
    · exact fail

theorem writeArgs (c : Cursor) :
    Traces (Grammar.writeArgs s c) (Traced.writeArgs s c) (Rule.writeArgs.top c.size)
      fun t => 64 * t.rest.size + 47 := by
  rw [Grammar.writeArgs, Traced.writeArgs]
  refine enter ?_
  refine taken ((writeArg s c).within (by decide)) ?_
  intro arg c₁ h₁
  refine accepted (acceptSymbol .comma) ?_ ?_
  · exact pure (Nat.le_refl _)
  · intro _ c₂ h₂
    refine taken ((writeArgs c₂).within (by decide)) ?_
    intro args c₃ h₃
    exact pure (Nat.le_refl _)
termination_by c.size

theorem writeStatement (newline : Bool) (c : Cursor) :
    Traces (Grammar.writeStatement s newline c) (Traced.writeStatement s newline c)
      (Rule.writeStatement.top c.size) fun t => 64 * t.rest.size + 61 := by
  refine enter ?_
  refine accepted (acceptSymbol .openParen) ?_ ?_
  · exact pure (Nat.le_refl _)
  · intro _ c₁ h₁
    dsimp only
    split
    · refine taken (symbol c₁ .closeParen) ?_
      intro _ c₂ h₂
      exact pure (Nat.add_le_add_left (by decide) _)
    · refine taken ((writeArgs s c₁).within (by decide)) ?_
      intro args c₂ h₂
      refine taken (symbol c₂ .closeParen) ?_
      intro _ c₃ h₃
      exact pure (Nat.add_le_add_left (by decide) _)

theorem namedStatement (name : Located Name) (c : Cursor) :
    Traces (Grammar.namedStatement s name c) (Traced.namedStatement s name c)
      (Rule.namedStatement.top c.size) fun t => 64 * t.rest.size + 47 := by
  have hcall : Traces (Grammar.callStatement s name c) (Traced.callStatement s name c)
      (Rule.namedStatement.level c.size) fun t => 64 * t.rest.size + 47 :=
    (callStatement s name c).mono (Nat.add_le_add_left (by decide) _) fun t =>
      Nat.add_le_add_left (by decide) _
  have hplain : Traces
      (if c.sees .openParen then Grammar.callStatement s name c else Grammar.assignment s name c)
      (if c.sees .openParen then Traced.callStatement s name c else Traced.assignment s name c)
      (Rule.namedStatement.level c.size) fun t => 64 * t.rest.size + 47 := by
    split
    · exact hcall
    · exact (assignment s name c).within (by decide)
  refine enter ?_
  unfold Grammar.namedStatement
  generalize s.lookup name = found
  cases found with
  | error e =>
    cases writes? name.value with
    | none => exact hplain
    | some newline =>
      exact (writeStatement s newline c).mono (Nat.add_le_add_left (by decide) _) fun t =>
        Nat.add_le_add_left (by decide) _
  | ok found =>
    obtain ⟨d, storage⟩ := found
    cases d with
    | routine r => exact hcall
    | _ => exact hplain

theorem condition (c : Cursor) :
    Traces (Grammar.condition s c) (Traced.condition s c) (Rule.condition.top c.size)
      fun t => 64 * t.rest.size + 47 := by
  refine enter ?_
  refine taken ((expression s c).within (by decide)) ?_
  intro e c₁ h₁
  refine check ?_
  intro _
  exact pure (Nat.le_refl _)

theorem loopLimit (context : String) (c : Cursor) :
    Traces (Grammar.loopLimit s context c) (Traced.loopLimit s context c)
      (Rule.loopLimit.top c.size) fun t => 64 * t.rest.size + 47 := by
  refine enter ?_
  refine taken ((expression s c).within (by decide)) ?_
  intro e c₁ h₁
  refine check ?_
  intro _
  exact pure (Nat.le_refl _)

theorem loopCounter (c : Cursor) :
    Traces (Grammar.loopCounter s c) (Traced.loopCounter s c) (Rule.loopCounter.top c.size)
      fun t => 64 * t.rest.size + 50 := by
  refine enter ?_
  refine taken (identifier c) ?_
  intro name c₁ h₁
  refine passed ((designator s name c₁).within (by decide)) ?_
  intro target c₂ h₂
  dsimp only
  split
  · exact pure (Nat.le_refl _)
  · exact fail

theorem loopHead (c : Cursor) :
    Traces (Grammar.loopHead s c) (Traced.loopHead s c) (Rule.loopHead.top c.size)
      fun t => 64 * t.rest.size + 47 := by
  refine enter ?_
  refine taken ((loopCounter s c).within (by decide)) ?_
  intro target c₁ h₁
  refine taken (symbol c₁ .assign) ?_
  intro _ c₂ h₂
  refine taken ((loopLimit s "as loop start" c₂).within (by decide)) ?_
  intro value c₃ h₃
  dsimp only
  split
  · exact fail
  · refine taken (keyword c₃ .kwTo) ?_
    intro _ c₄ h₄
    refine taken ((loopLimit s "as loop bound" c₄).within (by decide)) ?_
    intro bound c₅ h₅
    exact pure (Nat.le_refl _)

/-- What a statement is that starts with none of its own keywords and no name. -/
theorem transition (inLoop : Bool) (c : Cursor) :
    Traces
      (do
        match ← c.accept transition? with
        | none => return .stay none
        | some ⟨(kind, token), c₁, h₁⟩ =>
          if inLoop then return Taken.mk (some (.transition kind token.position)) c₁ h₁ |>.passed
          else reject token.position (.outsideLoop (transitionKeyword kind)))
      (do
        match ← Traced.accept c transition? with
        | none => return .stay none
        | some ⟨(kind, token), c₁, h₁⟩ =>
          if inLoop then return Taken.mk (some (.transition kind token.position)) c₁ h₁ |>.passed
          else
            (reject token.position (.outsideLoop (transitionKeyword kind)) :
              Read (Passed c (Option Stmt))))
      (Rule.statement.level c.size) fun t => 64 * t.rest.size + 27 := by
  refine accepted (accept transition?) ?_ ?_
  · exact pure (Nat.le_refl _)
  · intro (kind, token) c₁ h₁
    dsimp only
    split
    · exact pure (Nat.add_le_add_left (by decide) _)
    · exact fail

-- The measures are those of the rules, whose calls are the induction hypotheses.
mutual

theorem statement (inLoop : Bool) (c : Cursor) :
    Traces (Grammar.statement s inLoop c) (Traced.statement s inLoop c)
      (Rule.statement.top c.size) fun t => 64 * t.rest.size + 27 := by
  rw [Grammar.statement, Traced.statement]
  refine enter ?_
  generalize c.current.kind = kind
  cases kind with
  | keyword k =>
    cases k with
    | kwBegin =>
      refine taken ((compound inLoop c).within (by decide)) ?_
      intro ss c₁ h₁
      exact pure (Nat.add_le_add_left (by decide) _)
    | kwIf =>
      refine taken (keyword c .kwIf) ?_
      intro _ c₁ h₁
      refine taken ((condition s c₁).within (by decide)) ?_
      intro test c₂ h₂
      refine taken (keyword c₂ .kwThen) ?_
      intro _ c₃ h₃
      refine passed ((body inLoop c₃).within (by decide)) ?_
      intro yes c₄ h₄
      refine accepted (acceptKeyword .kwElse) ?_ ?_
      · exact pure (Nat.le_refl _)
      · intro _ c₅ h₅
        refine passed ((body inLoop c₅).within (by decide)) ?_
        intro no c₆ h₆
        exact pure (Nat.le_refl _)
    | kwWhile =>
      refine taken (keyword c .kwWhile) ?_
      intro _ c₁ h₁
      refine taken ((condition s c₁).within (by decide)) ?_
      intro test c₂ h₂
      refine taken (keyword c₂ .kwDo) ?_
      intro _ c₃ h₃
      refine passed ((body true c₃).within (by decide)) ?_
      intro inner c₄ h₄
      exact pure (Nat.le_refl _)
    | kwRepeat =>
      refine taken (keyword c .kwRepeat) ?_
      intro _ c₁ h₁
      refine passed ((statements true c₁).within (by decide)) ?_
      intro ss c₂ h₂
      refine taken (keyword c₂ .kwUntil) ?_
      intro _ c₃ h₃
      refine taken ((condition s c₃).within (by decide)) ?_
      intro test c₄ h₄
      exact pure (Nat.add_le_add_left (by decide) _)
    | kwFor =>
      refine taken (keyword c .kwFor) ?_
      intro token c₁ h₁
      refine taken ((loopHead s c₁).within (by decide)) ?_
      intro (target, value, bound) c₂ h₂
      refine taken (keyword c₂ .kwDo) ?_
      intro _ c₃ h₃
      refine passed ((body true c₃).within (by decide)) ?_
      intro inner c₄ h₄
      exact pure (Nat.le_refl _)
    | _ => exact transition inLoop c
  | identifier =>
    refine taken (identifier c) ?_
    intro name c₁ h₁
    refine passed ((namedStatement s name c₁).within (by decide)) ?_
    intro named c₂ h₂
    exact pure (Nat.add_le_add_left (by decide) _)
  | _ => exact transition inLoop c
termination_by 4 * c.size + 1

theorem body (inLoop : Bool) (c : Cursor) :
    Traces (Grammar.body s inLoop c) (Traced.body s inLoop c) (Rule.body.top c.size)
      fun t => 64 * t.rest.size + 27 := by
  rw [Grammar.body, Traced.body]
  refine enter ?_
  refine passed ((statement inLoop c).within (by decide)) ?_
  intro inner c₁ h₁
  exact pure (Nat.le_refl _)
termination_by 4 * c.size + 2

theorem statements (inLoop : Bool) (c : Cursor) :
    Traces (Grammar.statements s inLoop c) (Traced.statements s inLoop c)
      (Rule.statements.top c.size) fun t => 64 * t.rest.size + 27 := by
  rw [Grammar.statements, Traced.statements]
  refine enter ?_
  -- an empty statement takes nothing, but the list goes on behind a semicolon only
  refine passed ((statement inLoop c).within (by decide)) ?_
  intro first c₁ h₁
  refine accepted (acceptSymbol .semicolon) ?_ ?_
  · exact pure (Nat.le_refl _)
  · intro _ c₂ h₂
    refine passed ((statements inLoop c₂).within (by decide)) ?_
    intro ss c₃ h₃
    exact pure (Nat.le_refl _)
termination_by 4 * c.size + 2

theorem compound (inLoop : Bool) (c : Cursor) :
    Traces (Grammar.compound s inLoop c) (Traced.compound s inLoop c)
      (Rule.compound.top c.size) fun t => 64 * t.rest.size + 64 := by
  rw [Grammar.compound, Traced.compound]
  refine enter ?_
  refine taken (keyword c .kwBegin) ?_
  intro _ c₁ h₁
  refine passed ((statements inLoop c₁).within (by decide)) ?_
  intro ss c₂ h₂
  refine taken (keyword c₂ .kwEnd) ?_
  intro _ c₃ h₃
  exact pure (Nat.le_refl _)
termination_by 4 * c.size

end

end Traces

end MiniPascal
