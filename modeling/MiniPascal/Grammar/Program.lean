import MiniPascal.Grammar.Statement

/-! Reading declarations and routines. A routine is registered before its body is read, so that it
can call itself, and completed in place afterwards. -/

namespace MiniPascal

namespace Routine

/-- The routine with its body. -/
def complete (r : Routine) (body : Block) : Routine :=
  { r with body := some body, forward := false }

end Routine

namespace Declaration

/-- Gives a routine its body; other declarations stay as they are. -/
def complete (body : Block) : Declaration → Declaration
  | .routine r => .routine (r.complete body)
  | d => d

end Declaration

namespace Grammar

open Cursor

/-- Inserts variables of one type into a scope. -/
def addVariables (scope : Scope) (t : Ty) : List (Located Name) → Read Scope
  | [] => .ok scope
  | name :: names => do
    let scope ← Read.checked (scope.insert name.value (.var name.position t))
    addVariables scope t names

/-- Variables of one type, as in `a, b: integer`. -/
def variableGroup (scopes : Scopes) (scope : Scope) (c : Cursor) : Read (Taken c Scope) := do
  let ⟨names, c₁, h₁⟩ ← c.identifiers
  let ⟨_, c₂, h₂⟩ ← c₁.symbol .colon
  let ⟨t, c₃, h₃⟩ ← typeName scopes c₂
  let scope ← addVariables scope t names
  return Taken.mk scope c₃ h₃ |>.after h₂ |>.after h₁

/-- A declaration of variables up to its semicolon. -/
def variableDeclaration (scopes : Scopes) (c : Cursor) : Read (Taken c Scope) := do
  let ⟨names, c₁, h₁⟩ ← c.identifiers
  let ⟨_, c₂, h₂⟩ ← c₁.symbol .colon
  let ⟨t, c₃, h₃⟩ ← typeName scopes c₂
  let ⟨_, c₄, h₄⟩ ← c₃.symbol .semicolon
  let scope ← addVariables .empty t names
  return Taken.mk scope c₄ h₄ |>.after h₃ |>.after h₂ |>.after h₁

/-- The literal of a declared constant, whose integers fit into 32 bits. -/
def constantOf (e : Expr) : Read Expr := do
  match ← Read.checked e.fold with
  | .int n =>
    if fitsWord n then return .ofConstant (.int n) e.position else constantTooLarge e.position n
  | constant => return .ofConstant constant e.position

/-- A declaration of a constant up to its semicolon. -/
def constantDeclaration (scopes : Scopes) (c : Cursor) : Read (Taken c Scope) := do
  let ⟨name, c₁, h₁⟩ ← c.identifier
  let ⟨_, c₂, h₂⟩ ← c₁.symbol .equal
  let ⟨e, c₃, h₃⟩ ← expression scopes c₂
  let value ← constantOf e
  let ⟨_, c₄, h₄⟩ ← c₃.symbol .semicolon
  return Taken.mk ⟨[(name.value, .const name.position value)]⟩ c₄ h₄ |>.after h₃ |>.after h₂
    |>.after h₁

/-- A declaration of a type up to its semicolon. -/
def typeDeclaration (scopes : Scopes) (c : Cursor) : Read (Taken c Scope) := do
  let ⟨name, c₁, h₁⟩ ← c.identifier
  let ⟨_, c₂, h₂⟩ ← c₁.symbol .equal
  let ⟨t, c₃, h₃⟩ ← typeName scopes c₂
  let ⟨_, c₄, h₄⟩ ← c₃.symbol .semicolon
  return Taken.mk ⟨[(name.value, .type name.position t)]⟩ c₄ h₄ |>.after h₃ |>.after h₂ |>.after h₁

/-- Declares all of a scope in the innermost one. -/
def declareAll (scopes : Scopes) (scope : Scope) : Read Scopes :=
  match scopes.merge scope with
  | (scopes, none) => .ok scopes
  | (_, some e) => .error (e.map Fault.semantic)

/-- The kinds of declarations that come in sections. -/
inductive Section where
  | vars | consts | types
  deriving DecidableEq, Repr

/-- The section that a keyword starts. -/
def section? : Token.Kind → Option Section
  | .keyword .kwVar => some .vars
  | .keyword .kwConst => some .consts
  | .keyword .kwType => some .types
  | _ => none

/-- One declaration of a section. -/
def sectionDeclaration (s : Section) (scopes : Scopes) (c : Cursor) : Read (Taken c Scope) :=
  match s with
  | .vars => variableDeclaration scopes c
  | .consts => constantDeclaration scopes c
  | .types => typeDeclaration scopes c

/-- The declarations of a section; each sees those before it. -/
def sectionDeclarations (s : Section) (scopes : Scopes) (c : Cursor) : Read (Taken c Scopes) := do
  let ⟨scope, c₁, h₁⟩ ← sectionDeclaration s scopes c
  let scopes ← declareAll scopes scope
  if c₁.current.kind = .identifier then
    let ⟨scopes, c₂, h₂⟩ ← sectionDeclarations s scopes c₁
    return Taken.mk scopes c₂ h₂ |>.after h₁
  else return ⟨scopes, c₁, h₁⟩
termination_by c.size

/-- Groups of parameters with semicolons between them, behind the parameters read before. -/
def parameterGroups (scopes : Scopes) (params : Scope) (c : Cursor) : Read (Taken c Scope) := do
  let ⟨params, c₁, h₁⟩ ← variableGroup scopes params c
  match ← c₁.acceptSymbol .semicolon with
  | none => return ⟨params, c₁, h₁⟩
  | some ⟨_, c₂, h₂⟩ =>
    let ⟨params, c₃, h₃⟩ ← parameterGroups scopes params c₂
    return Taken.mk params c₃ h₃ |>.after h₂ |>.after h₁
termination_by c.size

/-- Parameters in parentheses, or none. -/
def parameters (scopes : Scopes) (c : Cursor) : Read (Passed c Scope) := do
  match ← c.acceptSymbol .openParen with
  | none => return .stay .empty
  | some ⟨_, c₁, h₁⟩ =>
    if c₁.sees .closeParen then
      let ⟨_, c₂, h₂⟩ ← c₁.symbol .closeParen
      return Taken.mk .empty c₂ h₂ |>.after h₁ |>.passed
    else
      let ⟨params, c₂, h₂⟩ ← parameterGroups scopes .empty c₁
      let ⟨_, c₃, h₃⟩ ← c₂.symbol .closeParen
      return Taken.mk params c₃ h₃ |>.after h₂ |>.after h₁ |>.passed

/-- The type of the result, which only functions have. -/
def resultType (scopes : Scopes) (isFunction : Bool) (c : Cursor) :
    Read (Passed c (Option Ty)) := do
  if isFunction then
    let ⟨_, c₁, h₁⟩ ← c.symbol .colon
    let ⟨t, c₂, h₂⟩ ← typeName scopes c₁
    return Taken.mk (some t) c₂ h₂ |>.after h₁ |>.passed
  else return .stay none

/-- Whether a keyword starts a routine, and whether that is a function. -/
def routine? : Token.Kind → Option Bool
  | .keyword .kwProcedure => some false
  | .keyword .kwFunction => some true
  | _ => none

/-- The heading of a routine behind its first keyword, up to its semicolon: the name, and the
routine without a body. The path holds the names of the routines around it. -/
def heading (path : List String) (scopes : Scopes) (isFunction : Bool) (c : Cursor) :
    Read (Taken c (Name × Routine)) := do
  let ⟨name, c₁, h₁⟩ ← c.identifier
  let ⟨params, c₂, h₂⟩ ← parameters scopes c₁
  let ⟨returns, c₃, h₃⟩ ← resultType scopes isFunction c₂
  let ⟨_, c₄, h₄⟩ ← c₃.symbol .semicolon
  let routine : Routine :=
    { position := name.position
      symbol := ".".intercalate (path ++ [name.value.canonical])
      params, returns
      body := none
      forward := true }
  return Taken.mk (name.value, routine) c₄ h₄ |>.past h₃ |>.past h₂ |>.after h₁

/-- Declares the routine of a heading. A definition may meet the `forward` declaration of the same
signature, which then stands. -/
def register (scopes : Scopes) (name : Name) (r : Routine) (forward : Bool) : Read Scopes :=
  match scopes.top.get? name with
  | none => Read.checked (scopes.insertTop name (.routine r))
  | some (.routine existing) =>
    if existing.forward && !forward then
      if existing.sameSignature r then .ok scopes
      else reject r.position (.forwardMismatch name)
    else reject r.position (.duplicateDeclaration name)
  | some _ => reject r.position (.duplicateDeclaration name)

/-- The scopes at the start of a routine's body. The result of a function is a variable of the
function's name. -/
def enterBody (scopes : Scopes) (name : Name) (r : Routine) : Read Scopes :=
  let inner := scopes.enter r.params
  match r.returns with
  | none => .ok inner
  | some t => Read.checked (inner.declare name (.var r.position t))

/-- The scopes behind a routine's body: those around it, with the routine complete. -/
def leaveBody (scopes : Scopes) (name : Name) (statements : List Stmt) : Scopes :=
  let (locals, outer) := scopes.leave
  outer.withTop (outer.top.modify name (Declaration.complete ⟨locals, statements⟩))

/-- Checks that every `forward` declaration of the innermost scope has been completed. -/
def checkForwards (scopes : Scopes) : Read Unit :=
  match scopes.top.routines.find? fun (_, r) => r.forward with
  | some (name, r) => reject r.position (.forwardWithoutBody name)
  | none => .ok ()

mutual

/-- The declarations in front of a `begin`. -/
def declarations (path : List String) (scopes : Scopes) (c : Cursor) :
    Read (Passed c Scopes) := do
  match ← c.accept section? with
  | some ⟨(s, _), c₁, h₁⟩ =>
    let ⟨scopes, c₂, h₂⟩ ← sectionDeclarations s scopes c₁
    let ⟨scopes, c₃, h₃⟩ ← declarations path scopes c₂
    return Passed.mk scopes c₃ h₃ |>.after h₂ |>.after h₁ |>.passed
  | none =>
    match ← c.accept routine? with
    | some ⟨(isFunction, _), c₁, h₁⟩ =>
      let ⟨scopes, c₂, h₂⟩ ← routine path scopes isFunction c₁
      let ⟨scopes, c₃, h₃⟩ ← declarations path scopes c₂
      return Passed.mk scopes c₃ h₃ |>.after h₂ |>.after h₁ |>.passed
    | none =>
      checkForwards scopes
      return .stay scopes
termination_by c.size

/-- A routine behind its first keyword. -/
def routine (path : List String) (scopes : Scopes) (isFunction : Bool) (c : Cursor) :
    Read (Taken c Scopes) := do
  let ⟨(name, r), c₁, h₁⟩ ← heading path scopes isFunction c
  let forward := c₁.seesKeyword .kwForward
  let scopes ← register scopes name r forward
  if forward then
    let ⟨_, c₂, h₂⟩ ← c₁.keyword .kwForward
    let ⟨_, c₃, h₃⟩ ← c₂.symbol .semicolon
    return Taken.mk scopes c₃ h₃ |>.after h₂ |>.after h₁
  else
    let inner ← enterBody scopes name r
    let ⟨inner, c₂, h₂⟩ ← declarations (path ++ [name.canonical]) inner c₁
    let ⟨ss, c₃, h₃⟩ ← compound inner false c₂
    let ⟨_, c₄, h₄⟩ ← c₃.symbol .semicolon
    return Taken.mk (leaveBody inner name ss) c₄ h₄ |>.after h₃ |>.past h₂ |>.after h₁
termination_by c.size

end

/-- The name in the header of a program, or else the one given. -/
def header (name : String) (c : Cursor) : Read (Passed c String) := do
  match ← c.acceptKeyword .kwProgram with
  | none => return .stay name
  | some ⟨_, c₁, h₁⟩ =>
    let ⟨id, c₂, h₂⟩ ← c₁.identifier
    let ⟨_, c₃, h₃⟩ ← c₂.symbol .semicolon
    return Taken.mk id.value.spelling c₃ h₃ |>.after h₂ |>.after h₁ |>.passed

end Grammar

namespace Program

/-- Reads a program up to the end of the text. -/
def ofCursor (name : String) (c : Cursor) : Read Program := do
  let ⟨name, c₁, _⟩ ← Grammar.header name c
  let ⟨scopes, c₂, _⟩ ← Grammar.declarations [] .empty c₁
  let ⟨ss, c₃, _⟩ ← Grammar.compound scopes false c₂
  let ⟨_, c₄, _⟩ ← c₃.symbol .dot
  c₄.finish
  return ⟨name, scopes.globals, ss⟩

/-- Reads the program of a text. The name is that of a program without a header. -/
def ofText (text name : String) : Read Program := do
  let c ← Cursor.ofText text
  ofCursor name c

end Program

end MiniPascal
