import MiniPascal.Grammar.Program

/-! Reading with one session that goes through all rules; a rule that is left has to put back what
it changed. -/

namespace MiniPascal

/-- What is carried along while a program is read. -/
structure Session where
  scopes : Scopes
  /-- The loops around, as far as they are in the same routine. -/
  loops : Nat
  /-- The names of the routines around. -/
  path : List String

namespace Session

open Cursor Grammar

/-- Readings that take a session and leave one. -/
abbrev Reading := StateT Session Read

/-- The scopes that are visible now. -/
def visible : Reading Scopes := return (← get).scopes

/-- Reads with one more loop around. -/
def loopBody {α : Type} (m : Reading α) : Reading α := do
  modify fun s => { s with loops := s.loops + 1 }
  let a ← m
  modify fun s => { s with loops := s.loops - 1 }
  return a

mutual

def statement (c : Cursor) : Reading (Passed c (Option Stmt)) := do
  match c.current.kind with
  | .keyword .kwBegin =>
    let ⟨body, c₁, h₁⟩ ← compound c
    return Taken.mk (some (.block body)) c₁ h₁ |>.passed
  | .keyword .kwIf =>
    let ⟨_, c₁, h₁⟩ ← c.keyword .kwIf
    let ⟨test, c₂, h₂⟩ ← condition (← visible) c₁
    let ⟨_, c₃, h₃⟩ ← c₂.keyword .kwThen
    let ⟨yes, c₄, h₄⟩ ← body c₃
    match ← c₄.acceptKeyword .kwElse with
    | none =>
      return Passed.mk (some (.ifElse test yes none)) c₄ h₄ |>.after h₃ |>.after h₂ |>.after h₁
        |>.passed
    | some ⟨_, c₅, h₅⟩ =>
      let ⟨no, c₆, h₆⟩ ← body c₅
      return Passed.mk (some (.ifElse test yes (some no))) c₆ h₆ |>.after h₅ |>.past h₄ |>.after h₃
        |>.after h₂ |>.after h₁ |>.passed
  | .keyword .kwWhile =>
    let ⟨_, c₁, h₁⟩ ← c.keyword .kwWhile
    let ⟨test, c₂, h₂⟩ ← condition (← visible) c₁
    let ⟨_, c₃, h₃⟩ ← c₂.keyword .kwDo
    let ⟨s, c₄, h₄⟩ ← loopBody (body c₃)
    return Passed.mk (some (.while test s)) c₄ h₄ |>.after h₃ |>.after h₂ |>.after h₁ |>.passed
  | .keyword .kwRepeat =>
    let ⟨_, c₁, h₁⟩ ← c.keyword .kwRepeat
    let ⟨ss, c₂, h₂⟩ ← loopBody (statements c₁)
    let ⟨_, c₃, h₃⟩ ← c₂.keyword .kwUntil
    let ⟨test, c₄, h₄⟩ ← condition (← visible) c₃
    return Taken.mk (some (.repeatUntil (.block ss) test)) c₄ h₄ |>.after h₃ |>.past h₂ |>.after h₁
      |>.passed
  | .keyword .kwFor =>
    let ⟨token, c₁, h₁⟩ ← c.keyword .kwFor
    let ⟨(target, value, bound), c₂, h₂⟩ ← loopHead (← visible) c₁
    let ⟨_, c₃, h₃⟩ ← c₂.keyword .kwDo
    let ⟨s, c₄, h₄⟩ ← loopBody (body c₃)
    return Passed.mk (some (.forTo token.position target value bound s)) c₄ h₄ |>.after h₃
      |>.after h₂ |>.after h₁ |>.passed
  | .identifier =>
    let ⟨name, c₁, h₁⟩ ← c.identifier
    let ⟨s, c₂, h₂⟩ ← namedStatement (← visible) name c₁
    return Passed.mk (some s) c₂ h₂ |>.after h₁ |>.passed
  | _ =>
    match ← c.accept transition? with
    | none => return .stay none
    | some ⟨(kind, token), c₁, h₁⟩ =>
      if (← get).loops = 0 then
        (reject token.position (.outsideLoop (transitionKeyword kind)) :
          Read (Passed c (Option Stmt)))
      else return Taken.mk (some (.transition kind token.position)) c₁ h₁ |>.passed
termination_by 4 * c.size + 1

def body (c : Cursor) : Reading (Passed c Stmt) := do
  let ⟨s, c₁, h₁⟩ ← statement c
  return ⟨s.getD .empty, c₁, h₁⟩
termination_by 4 * c.size + 2

def statements (c : Cursor) : Reading (Passed c (List Stmt)) := do
  let ⟨s, c₁, h₁⟩ ← statement c
  match ← c₁.acceptSymbol .semicolon with
  | none => return ⟨s.toList, c₁, h₁⟩
  | some ⟨_, c₂, h₂⟩ =>
    let ⟨ss, c₃, h₃⟩ ← statements c₂
    return Passed.mk (s.toList ++ ss) c₃ h₃ |>.after h₂ |>.past h₁ |>.passed
termination_by 4 * c.size + 2

def compound (c : Cursor) : Reading (Taken c (List Stmt)) := do
  let ⟨_, c₁, h₁⟩ ← c.keyword .kwBegin
  let ⟨ss, c₂, h₂⟩ ← statements c₁
  let ⟨_, c₃, h₃⟩ ← c₂.keyword .kwEnd
  return Taken.mk ss c₃ h₃ |>.past h₂ |>.after h₁
termination_by 4 * c.size

end

/-- Declares all of a scope. -/
def merge (scope : Scope) : Reading Unit := do
  let scopes ← declareAll (← visible) scope
  modify fun s => { s with scopes }

def sectionDeclarations (sec : Section) (c : Cursor) : Reading (Taken c Unit) := do
  let ⟨scope, c₁, h₁⟩ ← sectionDeclaration sec (← visible) c
  merge scope
  if c₁.current.kind = .identifier then
    let ⟨_, c₂, h₂⟩ ← sectionDeclarations sec c₁
    return Taken.mk () c₂ h₂ |>.after h₁
  else return ⟨(), c₁, h₁⟩
termination_by c.size

/-- Declares the routine of a heading. -/
def register (name : Name) (r : Routine) (forward : Bool) : Reading Unit := do
  let scopes ← Grammar.register (← visible) name r forward
  modify fun s => { s with scopes }

/-- Enters the body of a routine: its name goes onto the path, its scopes are entered, and its
result is declared. -/
def enterBody (name : Name) (r : Routine) : Reading Unit := do
  modify fun s => { s with path := s.path ++ [name.canonical] }
  modify fun s => { s with scopes := s.scopes.enter r.params }
  match r.returns with
  | none => return
  | some t =>
    let scopes ← Read.checked ((← visible).declare name (.var r.position t))
    modify fun s => { s with scopes }

/-- Leaves the body of a routine, whose statements have been read, and completes the routine. -/
def leaveBody (name : Name) (statements : List Stmt) : Reading Unit := do
  let locals ← modifyGet fun s => (s.scopes.leave.1, { s with scopes := s.scopes.leave.2 })
  modify fun s => { s with path := s.path.dropLast }
  modify fun s => { s with
    scopes := s.scopes.withTop (s.scopes.top.modify name (.complete ⟨locals, statements⟩)) }

mutual

def declarations (c : Cursor) : Reading (Passed c Unit) := do
  match ← c.accept section? with
  | some ⟨(s, _), c₁, h₁⟩ =>
    let ⟨_, c₂, h₂⟩ ← sectionDeclarations s c₁
    let ⟨_, c₃, h₃⟩ ← declarations c₂
    return Passed.mk () c₃ h₃ |>.after h₂ |>.after h₁ |>.passed
  | none =>
    match ← c.accept routine? with
    | some ⟨(isFunction, _), c₁, h₁⟩ =>
      let ⟨_, c₂, h₂⟩ ← routine isFunction c₁
      let ⟨_, c₃, h₃⟩ ← declarations c₂
      return Passed.mk () c₃ h₃ |>.after h₂ |>.after h₁ |>.passed
    | none =>
      checkForwards (← visible)
      return .stay ()
termination_by c.size

/-- A routine behind its first keyword. The loops around it are not around its body. -/
def routine (isFunction : Bool) (c : Cursor) : Reading (Taken c Unit) := do
  let s ← get
  let ⟨(name, r), c₁, h₁⟩ ← heading s.path s.scopes isFunction c
  let forward := c₁.seesKeyword .kwForward
  register name r forward
  if forward then
    let ⟨_, c₂, h₂⟩ ← c₁.keyword .kwForward
    let ⟨_, c₃, h₃⟩ ← c₂.symbol .semicolon
    return Taken.mk () c₃ h₃ |>.after h₂ |>.after h₁
  else
    enterBody name r
    let loops ← modifyGet fun s => (s.loops, { s with loops := 0 })
    let ⟨_, c₂, h₂⟩ ← declarations c₁
    let ⟨ss, c₃, h₃⟩ ← compound c₂
    let ⟨_, c₄, h₄⟩ ← c₃.symbol .semicolon
    modify fun s => { s with loops }
    leaveBody name ss
    return Taken.mk () c₄ h₄ |>.after h₃ |>.past h₂ |>.after h₁
termination_by c.size

end

end Session

end MiniPascal
