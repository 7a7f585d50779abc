import MiniPascal.Proofs.Trace.Expression

namespace MiniPascal

namespace Traced

open Cursor Grammar

def range (scopes : Scopes) (c : Cursor) : Traced (Taken c (Expr × Expr)) := do
  enter .range c
  let ⟨low, c₁, h₁⟩ ← expression scopes c
  let low ← boundOf low
  let ⟨_, c₂, h₂⟩ ← symbol c₁ .doubleDot
  let ⟨high, c₃, h₃⟩ ← expression scopes c₂
  let high ← boundOf high
  checkRange low high
  return Taken.mk (low, high) c₃ h₃ |>.after h₂ |>.after h₁

def ranges (scopes : Scopes) (c : Cursor) : Traced (Taken c (List (Expr × Expr))) := do
  enter .ranges c
  let ⟨r, c₁, h₁⟩ ← range scopes c
  match ← acceptSymbol c₁ .comma with
  | none => return ⟨[r], c₁, h₁⟩
  | some ⟨_, c₂, h₂⟩ =>
    let ⟨rs, c₃, h₃⟩ ← ranges scopes c₂
    return Taken.mk (r :: rs) c₃ h₃ |>.after h₂ |>.after h₁
termination_by c.size

mutual

def typeName (scopes : Scopes) (c : Cursor) : Traced (Taken c Ty) := do
  enter .typeName c
  match ← accept c scalar? with
  | some ⟨(s, _), c₁, h₁⟩ => return ⟨.scalar s, c₁, h₁⟩
  | none =>
    match ← acceptKeyword c .kwArray with
    | some ⟨_, c₁, h₁⟩ =>
      let ⟨_, c₂, h₂⟩ ← symbol c₁ .openSquare
      let ⟨rs, c₃, h₃⟩ ← ranges scopes c₂
      let ⟨_, c₄, h₄⟩ ← symbol c₃ .closeSquare
      let ⟨_, c₅, h₅⟩ ← keyword c₄ .kwOf
      let ⟨element, c₆, h₆⟩ ← typeName scopes c₅
      return Taken.mk (nestArrays rs element) c₆ h₆ |>.after h₅ |>.after h₄ |>.after h₃ |>.after h₂
        |>.after h₁
    | none =>
      match ← acceptKeyword c .kwRecord with
      | some ⟨_, c₁, h₁⟩ =>
        let ⟨fields, c₂, h₂⟩ ← fieldList scopes [] c₁
        let ⟨_, c₃, h₃⟩ ← keyword c₂ .kwEnd
        return Taken.mk (.record fields) c₃ h₃ |>.past h₂ |>.after h₁
      | none =>
        if c.current.kind = .identifier then
          let ⟨name, c₁, h₁⟩ ← identifier c
          let t ← declaredType scopes name
          return ⟨t, c₁, h₁⟩
        else c.unexpected
termination_by c.size

def fieldList (scopes : Scopes) (fields : List (Name × Ty)) (c : Cursor) :
    Traced (Passed c (List (Name × Ty))) := do
  enter .fieldList c
  if c.current.kind = .identifier then
    let ⟨names, c₁, h₁⟩ ← identifiers c
    let ⟨_, c₂, h₂⟩ ← symbol c₁ .colon
    let ⟨t, c₃, h₃⟩ ← typeName scopes c₂
    let fields ← addFields fields t names
    match ← acceptSymbol c₃ .semicolon with
    | none => return Taken.mk fields c₃ h₃ |>.after h₂ |>.after h₁ |>.passed
    | some ⟨_, c₄, h₄⟩ =>
      let ⟨fields, c₅, h₅⟩ ← fieldList scopes fields c₄
      return Passed.mk fields c₅ h₅ |>.after h₄ |>.after h₃ |>.after h₂ |>.after h₁ |>.passed
  else return .stay fields
termination_by c.size

end

end Traced

namespace Traces

open Cursor Grammar

variable (s : Scopes)

theorem range (c : Cursor) :
    Traces (Grammar.range s c) (Traced.range s c) (Rule.range.top c.size)
      fun t => 64 * t.rest.size + 47 := by
  refine enter ?_
  refine taken ((expression s c).within (by decide)) ?_
  intro low c₁ h₁
  refine check ?_
  intro low
  refine taken (symbol c₁ .doubleDot) ?_
  intro _ c₂ h₂
  refine taken ((expression s c₂).within (by decide)) ?_
  intro high c₃ h₃
  refine check ?_
  intro high
  refine check ?_
  intro _
  exact pure (Nat.le_refl _)

theorem ranges (c : Cursor) :
    Traces (Grammar.ranges s c) (Traced.ranges s c) (Rule.ranges.top c.size)
      fun t => 64 * t.rest.size + 47 := by
  rw [Grammar.ranges, Traced.ranges]
  refine enter ?_
  refine taken ((range s c).within (by decide)) ?_
  intro r c₁ h₁
  refine accepted (acceptSymbol .comma) ?_ ?_
  · exact pure (Nat.le_refl _)
  · intro _ c₂ h₂
    refine taken ((ranges c₂).within (by decide)) ?_
    intro rs c₃ h₃
    exact pure (Nat.le_refl _)
termination_by c.size

mutual

/-- A type ends with a token, even where it is a declared one or a record without fields. -/
theorem typeName (c : Cursor) :
    Traces (Grammar.typeName s c) (Traced.typeName s c) (Rule.typeName.top c.size)
      fun t => 64 * t.rest.size + 64 := by
  rw [Grammar.typeName, Traced.typeName]
  refine enter ?_
  refine accepted (accept scalar?) ?_ ?_
  · refine accepted (acceptKeyword .kwArray) ?_ ?_
    · refine accepted (acceptKeyword .kwRecord) ?_ ?_
      · dsimp only
        split
        · refine taken (identifier c) ?_
          intro name c₁ h₁
          refine check ?_
          intro t
          exact pure (Nat.le_refl _)
        · exact fail
      · intro _ c₁ h₁
        refine passed ((fieldList [] c₁).within (by decide)) ?_
        intro fields c₂ h₂
        refine taken (keyword c₂ .kwEnd) ?_
        intro _ c₃ h₃
        exact pure (Nat.le_refl _)
    · intro _ c₁ h₁
      refine taken (symbol c₁ .openSquare) ?_
      intro _ c₂ h₂
      refine taken ((ranges s c₂).within (by decide)) ?_
      intro rs c₃ h₃
      refine taken (symbol c₃ .closeSquare) ?_
      intro _ c₄ h₄
      refine taken (keyword c₄ .kwOf) ?_
      intro _ c₅ h₅
      refine taken ((typeName c₅).within (by decide)) ?_
      intro element c₆ h₆
      exact pure (Nat.le_refl _)
  · intro (scalar, token) c₁ h₁
    exact pure (Nat.le_refl _)
termination_by c.size

theorem fieldList (fields : List (Name × Ty)) (c : Cursor) :
    Traces (Grammar.fieldList s fields c) (Traced.fieldList s fields c)
      (Rule.fieldList.top c.size) fun t => 64 * t.rest.size + 34 := by
  rw [Grammar.fieldList, Traced.fieldList]
  refine enter ?_
  split
  · refine taken ((identifiers c).within (by decide)) ?_
    intro names c₁ h₁
    refine taken (symbol c₁ .colon) ?_
    intro _ c₂ h₂
    refine taken ((typeName c₂).within (by decide)) ?_
    intro t c₃ h₃
    refine check ?_
    intro fields
    refine accepted (acceptSymbol .semicolon) ?_ ?_
    · exact pure (Nat.add_le_add_left (by decide) _)
    · intro _ c₄ h₄
      refine passed ((fieldList fields c₄).within (by decide)) ?_
      intro fields c₅ h₅
      exact pure (Nat.le_refl _)
  · exact pure (Nat.le_refl _)
termination_by c.size

end

end Traces

end MiniPascal
