import MiniPascal.Proofs.Trace.Statement

/-! A program is read with at most two fetches more than the text has tokens and lexical errors. -/

namespace MiniPascal

namespace Traced

open Cursor Grammar

def variableGroup (scopes : Scopes) (scope : Scope) (c : Cursor) : Traced (Taken c Scope) := do
  enter .variableGroup c
  let ⟨names, c₁, h₁⟩ ← identifiers c
  let ⟨_, c₂, h₂⟩ ← symbol c₁ .colon
  let ⟨t, c₃, h₃⟩ ← typeName scopes c₂
  let scope ← addVariables scope t names
  return Taken.mk scope c₃ h₃ |>.after h₂ |>.after h₁

def variableDeclaration (scopes : Scopes) (c : Cursor) : Traced (Taken c Scope) := do
  enter .variableDeclaration c
  let ⟨names, c₁, h₁⟩ ← identifiers c
  let ⟨_, c₂, h₂⟩ ← symbol c₁ .colon
  let ⟨t, c₃, h₃⟩ ← typeName scopes c₂
  let ⟨_, c₄, h₄⟩ ← symbol c₃ .semicolon
  let scope ← addVariables .empty t names
  return Taken.mk scope c₄ h₄ |>.after h₃ |>.after h₂ |>.after h₁

def constantDeclaration (scopes : Scopes) (c : Cursor) : Traced (Taken c Scope) := do
  enter .constantDeclaration c
  let ⟨name, c₁, h₁⟩ ← identifier c
  let ⟨_, c₂, h₂⟩ ← symbol c₁ .equal
  let ⟨e, c₃, h₃⟩ ← expression scopes c₂
  let value ← constantOf e
  let ⟨_, c₄, h₄⟩ ← symbol c₃ .semicolon
  return Taken.mk ⟨[(name.value, .const name.position value)]⟩ c₄ h₄ |>.after h₃ |>.after h₂
    |>.after h₁

def typeDeclaration (scopes : Scopes) (c : Cursor) : Traced (Taken c Scope) := do
  enter .typeDeclaration c
  let ⟨name, c₁, h₁⟩ ← identifier c
  let ⟨_, c₂, h₂⟩ ← symbol c₁ .equal
  let ⟨t, c₃, h₃⟩ ← typeName scopes c₂
  let ⟨_, c₄, h₄⟩ ← symbol c₃ .semicolon
  return Taken.mk ⟨[(name.value, .type name.position t)]⟩ c₄ h₄ |>.after h₃ |>.after h₂ |>.after h₁

def sectionDeclaration (s : Section) (scopes : Scopes) (c : Cursor) : Traced (Taken c Scope) := do
  enter .sectionDeclaration c
  match s with
  | .vars => variableDeclaration scopes c
  | .consts => constantDeclaration scopes c
  | .types => typeDeclaration scopes c

def sectionDeclarations (s : Section) (scopes : Scopes) (c : Cursor) :
    Traced (Taken c Scopes) := do
  enter .sectionDeclarations c
  let ⟨scope, c₁, h₁⟩ ← sectionDeclaration s scopes c
  let scopes ← declareAll scopes scope
  if c₁.current.kind = .identifier then
    let ⟨scopes, c₂, h₂⟩ ← sectionDeclarations s scopes c₁
    return Taken.mk scopes c₂ h₂ |>.after h₁
  else return ⟨scopes, c₁, h₁⟩
termination_by c.size

def parameterGroups (scopes : Scopes) (params : Scope) (c : Cursor) : Traced (Taken c Scope) := do
  enter .parameterGroups c
  let ⟨params, c₁, h₁⟩ ← variableGroup scopes params c
  match ← acceptSymbol c₁ .semicolon with
  | none => return ⟨params, c₁, h₁⟩
  | some ⟨_, c₂, h₂⟩ =>
    let ⟨params, c₃, h₃⟩ ← parameterGroups scopes params c₂
    return Taken.mk params c₃ h₃ |>.after h₂ |>.after h₁
termination_by c.size

def parameters (scopes : Scopes) (c : Cursor) : Traced (Passed c Scope) := do
  enter .parameters c
  match ← acceptSymbol c .openParen with
  | none => return .stay .empty
  | some ⟨_, c₁, h₁⟩ =>
    if c₁.sees .closeParen then
      let ⟨_, c₂, h₂⟩ ← symbol c₁ .closeParen
      return Taken.mk .empty c₂ h₂ |>.after h₁ |>.passed
    else
      let ⟨params, c₂, h₂⟩ ← parameterGroups scopes .empty c₁
      let ⟨_, c₃, h₃⟩ ← symbol c₂ .closeParen
      return Taken.mk params c₃ h₃ |>.after h₂ |>.after h₁ |>.passed

def resultType (scopes : Scopes) (isFunction : Bool) (c : Cursor) :
    Traced (Passed c (Option Ty)) := do
  enter .resultType c
  if isFunction then
    let ⟨_, c₁, h₁⟩ ← symbol c .colon
    let ⟨t, c₂, h₂⟩ ← typeName scopes c₁
    return Taken.mk (some t) c₂ h₂ |>.after h₁ |>.passed
  else return .stay none

def heading (path : List String) (scopes : Scopes) (isFunction : Bool) (c : Cursor) :
    Traced (Taken c (Name × Routine)) := do
  enter .heading c
  let ⟨name, c₁, h₁⟩ ← identifier c
  let ⟨params, c₂, h₂⟩ ← parameters scopes c₁
  let ⟨returns, c₃, h₃⟩ ← resultType scopes isFunction c₂
  let ⟨_, c₄, h₄⟩ ← symbol c₃ .semicolon
  let routine : Routine :=
    { position := name.position
      symbol := ".".intercalate (path ++ [name.value.canonical])
      params, returns
      body := none
      forward := true }
  return Taken.mk (name.value, routine) c₄ h₄ |>.past h₃ |>.past h₂ |>.after h₁

mutual

def declarations (path : List String) (scopes : Scopes) (c : Cursor) :
    Traced (Passed c Scopes) := do
  enter .declarations c
  match ← accept c section? with
  | some ⟨(s, _), c₁, h₁⟩ =>
    let ⟨scopes, c₂, h₂⟩ ← sectionDeclarations s scopes c₁
    let ⟨scopes, c₃, h₃⟩ ← declarations path scopes c₂
    return Passed.mk scopes c₃ h₃ |>.after h₂ |>.after h₁ |>.passed
  | none =>
    match ← accept c routine? with
    | some ⟨(isFunction, _), c₁, h₁⟩ =>
      let ⟨scopes, c₂, h₂⟩ ← routine path scopes isFunction c₁
      let ⟨scopes, c₃, h₃⟩ ← declarations path scopes c₂
      return Passed.mk scopes c₃ h₃ |>.after h₂ |>.after h₁ |>.passed
    | none =>
      checkForwards scopes
      return .stay scopes
termination_by c.size

def routine (path : List String) (scopes : Scopes) (isFunction : Bool) (c : Cursor) :
    Traced (Taken c Scopes) := do
  enter .routine c
  let ⟨(name, r), c₁, h₁⟩ ← heading path scopes isFunction c
  let forward := c₁.seesKeyword .kwForward
  let scopes ← register scopes name r forward
  if forward then
    let ⟨_, c₂, h₂⟩ ← keyword c₁ .kwForward
    let ⟨_, c₃, h₃⟩ ← symbol c₂ .semicolon
    return Taken.mk scopes c₃ h₃ |>.after h₂ |>.after h₁
  else
    let inner ← enterBody scopes name r
    let ⟨inner, c₂, h₂⟩ ← declarations (path ++ [name.canonical]) inner c₁
    let ⟨ss, c₃, h₃⟩ ← compound inner false c₂
    let ⟨_, c₄, h₄⟩ ← symbol c₃ .semicolon
    return Taken.mk (leaveBody inner name ss) c₄ h₄ |>.after h₃ |>.past h₂ |>.after h₁
termination_by c.size

end

def header (name : String) (c : Cursor) : Traced (Passed c String) := do
  enter .header c
  match ← acceptKeyword c .kwProgram with
  | none => return .stay name
  | some ⟨_, c₁, h₁⟩ =>
    let ⟨id, c₂, h₂⟩ ← identifier c₁
    let ⟨_, c₃, h₃⟩ ← symbol c₂ .semicolon
    return Taken.mk id.value.spelling c₃ h₃ |>.after h₂ |>.after h₁ |>.passed

def ofCursor (name : String) (c : Cursor) : Traced Program := do
  let ⟨name, c₁, _⟩ ← header name c
  let ⟨scopes, c₂, _⟩ ← declarations [] .empty c₁
  let ⟨ss, c₃, _⟩ ← compound scopes false c₂
  let ⟨_, c₄, _⟩ ← symbol c₃ .dot
  finish c₄
  return ⟨name, scopes.globals, ss⟩

/-- Reads the program of a text and tells what it does. -/
def ofText (text name : String) : Traced Program := do
  let c ← start text
  ofCursor name c

end Traced

namespace Traces

open Cursor Grammar

variable (s : Scopes)

theorem variableGroup (scope : Scope) (c : Cursor) :
    Traces (Grammar.variableGroup s scope c) (Traced.variableGroup s scope c)
      (Rule.variableGroup.top c.size) fun t => 64 * t.rest.size + 64 := by
  refine enter ?_
  refine taken ((identifiers c).within (by decide)) ?_
  intro names c₁ h₁
  refine taken (symbol c₁ .colon) ?_
  intro _ c₂ h₂
  refine taken ((typeName s c₂).within (by decide)) ?_
  intro t c₃ h₃
  refine check ?_
  intro scope
  exact pure (Nat.le_refl _)

theorem variableDeclaration (c : Cursor) :
    Traces (Grammar.variableDeclaration s c) (Traced.variableDeclaration s c)
      (Rule.variableDeclaration.top c.size) fun t => 64 * t.rest.size + 64 := by
  refine enter ?_
  refine taken ((identifiers c).within (by decide)) ?_
  intro names c₁ h₁
  refine taken (symbol c₁ .colon) ?_
  intro _ c₂ h₂
  refine taken ((typeName s c₂).within (by decide)) ?_
  intro t c₃ h₃
  refine taken (symbol c₃ .semicolon) ?_
  intro _ c₄ h₄
  refine check ?_
  intro scope
  exact pure (Nat.le_refl _)

theorem constantDeclaration (c : Cursor) :
    Traces (Grammar.constantDeclaration s c) (Traced.constantDeclaration s c)
      (Rule.constantDeclaration.top c.size) fun t => 64 * t.rest.size + 64 := by
  refine enter ?_
  refine taken (identifier c) ?_
  intro name c₁ h₁
  refine taken (symbol c₁ .equal) ?_
  intro _ c₂ h₂
  refine taken ((expression s c₂).within (by decide)) ?_
  intro e c₃ h₃
  refine check ?_
  intro value
  refine taken (symbol c₃ .semicolon) ?_
  intro _ c₄ h₄
  exact pure (Nat.le_refl _)

theorem typeDeclaration (c : Cursor) :
    Traces (Grammar.typeDeclaration s c) (Traced.typeDeclaration s c)
      (Rule.typeDeclaration.top c.size) fun t => 64 * t.rest.size + 64 := by
  refine enter ?_
  refine taken (identifier c) ?_
  intro name c₁ h₁
  refine taken (symbol c₁ .equal) ?_
  intro _ c₂ h₂
  refine taken ((typeName s c₂).within (by decide)) ?_
  intro t c₃ h₃
  refine taken (symbol c₃ .semicolon) ?_
  intro _ c₄ h₄
  exact pure (Nat.le_refl _)

theorem sectionDeclaration (kind : Section) (c : Cursor) :
    Traces (Grammar.sectionDeclaration kind s c) (Traced.sectionDeclaration kind s c)
      (Rule.sectionDeclaration.top c.size) fun t => 64 * t.rest.size + 64 := by
  refine enter ?_
  cases kind with
  | vars => exact (variableDeclaration s c).within (by decide)
  | consts => exact (constantDeclaration s c).within (by decide)
  | types => exact (typeDeclaration s c).within (by decide)

theorem sectionDeclarations (kind : Section) (s : Scopes) (c : Cursor) :
    Traces (Grammar.sectionDeclarations kind s c) (Traced.sectionDeclarations kind s c)
      (Rule.sectionDeclarations.top c.size) fun t => 64 * t.rest.size + 64 := by
  rw [Grammar.sectionDeclarations, Traced.sectionDeclarations]
  refine enter ?_
  refine taken ((sectionDeclaration s kind c).within (by decide)) ?_
  intro scope c₁ h₁
  refine check ?_
  intro s
  dsimp only
  split
  · refine taken ((sectionDeclarations kind s c₁).within (by decide)) ?_
    intro s c₂ h₂
    exact pure (Nat.le_refl _)
  · exact pure (Nat.le_refl _)
termination_by c.size

theorem parameterGroups (params : Scope) (c : Cursor) :
    Traces (Grammar.parameterGroups s params c) (Traced.parameterGroups s params c)
      (Rule.parameterGroups.top c.size) fun t => 64 * t.rest.size + 64 := by
  rw [Grammar.parameterGroups, Traced.parameterGroups]
  refine enter ?_
  refine taken ((variableGroup s params c).within (by decide)) ?_
  intro params c₁ h₁
  refine accepted (acceptSymbol .semicolon) ?_ ?_
  · exact pure (Nat.le_refl _)
  · intro _ c₂ h₂
    refine taken ((parameterGroups params c₂).within (by decide)) ?_
    intro params c₃ h₃
    exact pure (Nat.le_refl _)
termination_by c.size

theorem parameters (c : Cursor) :
    Traces (Grammar.parameters s c) (Traced.parameters s c) (Rule.parameters.top c.size)
      fun t => 64 * t.rest.size + 46 := by
  refine enter ?_
  refine accepted (acceptSymbol .openParen) ?_ ?_
  · exact pure (Nat.le_refl _)
  · intro _ c₁ h₁
    dsimp only
    split
    · refine taken (symbol c₁ .closeParen) ?_
      intro _ c₂ h₂
      exact pure (Nat.add_le_add_left (by decide) _)
    · refine taken ((parameterGroups s .empty c₁).within (by decide)) ?_
      intro params c₂ h₂
      refine taken (symbol c₂ .closeParen) ?_
      intro _ c₃ h₃
      exact pure (Nat.add_le_add_left (by decide) _)

theorem resultType (isFunction : Bool) (c : Cursor) :
    Traces (Grammar.resultType s isFunction c) (Traced.resultType s isFunction c)
      (Rule.resultType.top c.size) fun t => 64 * t.rest.size + 45 := by
  refine enter ?_
  cases isFunction with
  | true =>
    refine taken (symbol c .colon) ?_
    intro _ c₁ h₁
    refine taken ((typeName s c₁).within (by decide)) ?_
    intro t c₂ h₂
    exact pure (Nat.add_le_add_left (by decide) _)
  | false => exact pure (Nat.le_refl _)

theorem heading (path : List String) (isFunction : Bool) (c : Cursor) :
    Traces (Grammar.heading path s isFunction c) (Traced.heading path s isFunction c)
      (Rule.heading.top c.size) fun t => 64 * t.rest.size + 64 := by
  refine enter ?_
  refine taken (identifier c) ?_
  intro name c₁ h₁
  refine passed ((parameters s c₁).within (by decide)) ?_
  intro params c₂ h₂
  refine passed ((resultType s isFunction c₂).within (by decide)) ?_
  intro returns c₃ h₃
  refine taken (symbol c₃ .semicolon) ?_
  intro _ c₄ h₄
  exact pure (Nat.le_refl _)

mutual

theorem declarations (path : List String) (s : Scopes) (c : Cursor) :
    Traces (Grammar.declarations path s c) (Traced.declarations path s c)
      (Rule.declarations.top c.size) fun t => 64 * t.rest.size + 44 := by
  rw [Grammar.declarations, Traced.declarations]
  refine enter ?_
  refine accepted (accept section?) ?_ ?_
  · refine accepted (accept routine?) ?_ ?_
    · -- neither a section nor a routine: the declarations are over
      refine check ?_
      intro _
      exact pure (Nat.le_refl _)
    · intro (isFunction, token) c₁ h₁
      refine taken ((routine path s isFunction c₁).within (by decide)) ?_
      intro s c₂ h₂
      refine passed ((declarations path s c₂).within (by decide)) ?_
      intro s c₃ h₃
      exact pure (Nat.le_refl _)
  · intro (kind, token) c₁ h₁
    refine taken ((sectionDeclarations kind s c₁).within (by decide)) ?_
    intro s c₂ h₂
    refine passed ((declarations path s c₂).within (by decide)) ?_
    intro s c₃ h₃
    exact pure (Nat.le_refl _)
termination_by c.size

theorem routine (path : List String) (s : Scopes) (isFunction : Bool) (c : Cursor) :
    Traces (Grammar.routine path s isFunction c) (Traced.routine path s isFunction c)
      (Rule.routine.top c.size) fun t => 64 * t.rest.size + 64 := by
  rw [Grammar.routine, Traced.routine]
  refine enter ?_
  refine taken ((heading s path isFunction c).within (by decide)) ?_
  intro (name, r) c₁ h₁
  refine check ?_
  intro s
  dsimp only
  split
  · refine taken (keyword c₁ .kwForward) ?_
    intro _ c₂ h₂
    refine taken (symbol c₂ .semicolon) ?_
    intro _ c₃ h₃
    exact pure (Nat.le_refl _)
  · refine check ?_
    intro inner
    refine passed ((declarations (path ++ [name.canonical]) inner c₁).within (by decide)) ?_
    intro inner c₂ h₂
    refine taken ((compound inner false c₂).within (by decide)) ?_
    intro ss c₃ h₃
    refine taken (symbol c₃ .semicolon) ?_
    intro _ c₄ h₄
    exact pure (Nat.le_refl _)
termination_by c.size

end

theorem header (name : String) (c : Cursor) :
    Traces (Grammar.header name c) (Traced.header name c) (Rule.header.top c.size)
      fun t => 64 * t.rest.size + 63 := by
  refine enter ?_
  refine accepted (acceptKeyword .kwProgram) ?_ ?_
  · exact pure (Nat.le_refl _)
  · intro _ c₁ h₁
    refine taken (identifier c₁) ?_
    intro id c₂ h₂
    refine taken (symbol c₂ .semicolon) ?_
    intro _ c₃ h₃
    exact pure (Nat.add_le_add_left (by decide) _)

/-- The last fetch is below all others, as no token is left for it. -/
theorem finish (c : Cursor) (hi : Nat) :
    Traces c.finish (Traced.finish c) (hi + 1) fun _ => 0 := by
  unfold Cursor.finish Traced.finish
  split
  · constructor
    · rfl
    · exact List.pairwise_singleton _ _
    · exact List.forall_mem_singleton.2 (Nat.succ_pos hi)
    · intro _ _
      exact ⟨Nat.zero_le (hi + 1), fun e _ => Nat.zero_le e.level⟩
  · exact fail

theorem ofCursor (name : String) (c : Cursor) :
    Traces (Program.ofCursor name c) (Traced.ofCursor name c) (Rule.header.top c.size)
      fun _ => 0 := by
  refine passed ((header name c).within (by decide)) ?_
  intro name c₁ h₁
  refine passed ((declarations [] .empty c₁).within (by decide)) ?_
  intro scopes c₂ h₂
  refine taken ((compound scopes false c₂).within (by decide)) ?_
  intro ss c₃ h₃
  refine taken (symbol c₃ .dot) ?_
  intro _ c₄ h₄
  refine (finish c₄ _).bind ?_
  intro _ _
  exact pure (Nat.zero_le 0)

theorem size_ofText {text : String} {c : Cursor} (h : Cursor.ofText text = .ok c) :
    c.size ≤ (Token.scan text false).length := by
  simp only [Cursor.ofText, advance] at h
  split at h
  · cases h
    exact Nat.zero_le _
  · rename_i token rest hscan
    cases h
    rw [hscan, List.length_cons, size]
    split
    · exact Nat.zero_le _
    · exact Nat.le_refl _
  · cases h

/-- The first fetch is above all that the rules tell. -/
theorem start (text : String) :
    Traces (Cursor.ofText text) (Traced.start text)
      (64 * ((Token.scan text false).length + 1) + 1) fun c => Rule.header.top c.size where
  outcome := rfl
  falls := List.pairwise_singleton _ _
  below := List.forall_mem_singleton.2 (Nat.lt_succ_self _)
  above := by
    intro c hc
    have hsize := size_ofText hc
    have hfetch : Rule.header.top c.size ≤ 64 * ((Token.scan text false).length + 1) := by
      simp only [Rule.top, Rule.rank]
      omega
    exact ⟨Nat.le_succ_of_le hfetch, List.forall_mem_singleton.2 hfetch⟩

theorem ofText (text name : String) :
    Traces (Program.ofText text name) (Traced.ofText text name)
      (64 * ((Token.scan text false).length + 1) + 1) fun _ => 0 := by
  refine (start text).bind ?_
  intro c _
  exact ofCursor name c

end Traces

end MiniPascal
