import MiniPascal.Grammar.Expression

namespace MiniPascal.Grammar

open Cursor

/-- Whether an integer fits into 32 bits. -/
def fitsWord (n : Int64) : Bool := -0x80000000 ≤ n.toInt && n.toInt ≤ 0x7fffffff

/-- The fault of an integer constant that does not fit into 32 bits. -/
def constantTooLarge {α : Type} (p : Position) (n : Int64) : Read α :=
  .error ⟨p, .lexical (.integerOverflow (toString n.toInt))⟩

/-- The literal of a bound. -/
def boundOf (e : Expr) : Read Expr := do
  match ← Read.checked e.fold with
  | .int n =>
    if fitsWord n then return .ofConstant (.int n) e.position else constantTooLarge e.position n
  | _ => reject e.position (.unexpectedType (.arrayBounds e.type))

/-- Checks that a range is not empty. -/
def checkRange (low high : Expr) : Read Unit :=
  match low.asConstant, high.asConstant with
  | some l, some h => if h < l then reject low.position (.emptyRange l h) else .ok ()
  | _, _ => .ok ()

/-- The bounds of an array. -/
def range (scopes : Scopes) (c : Cursor) : Read (Taken c (Expr × Expr)) := do
  let ⟨low, c₁, h₁⟩ ← expression scopes c
  let low ← boundOf low
  let ⟨_, c₂, h₂⟩ ← c₁.symbol .doubleDot
  let ⟨high, c₃, h₃⟩ ← expression scopes c₂
  let high ← boundOf high
  checkRange low high
  return Taken.mk (low, high) c₃ h₃ |>.after h₂ |>.after h₁

/-- Ranges with commas between them. -/
def ranges (scopes : Scopes) (c : Cursor) : Read (Taken c (List (Expr × Expr))) := do
  let ⟨r, c₁, h₁⟩ ← range scopes c
  match ← c₁.acceptSymbol .comma with
  | none => return ⟨[r], c₁, h₁⟩
  | some ⟨_, c₂, h₂⟩ =>
    let ⟨rs, c₃, h₃⟩ ← ranges scopes c₂
    return Taken.mk (r :: rs) c₃ h₃ |>.after h₂ |>.after h₁
termination_by c.size

/-- Arrays nested in the order of their ranges. -/
def nestArrays (ranges : List (Expr × Expr)) (element : Ty) : Ty :=
  ranges.foldr (fun (low, high) t => .array low high t) element

/-- Adds fields of one type; a name that is there already is refused. -/
def addFields (fields : List (Name × Ty)) (t : Ty) : List (Located Name) → Read (List (Name × Ty))
  | [] => .ok fields
  | name :: names =>
    if fields.any fun f => f.1 == name.value then
      reject name.position (.duplicateDeclaration name.value)
    else addFields (fields ++ [(name.value, t)]) t names

/-- The type that a declared name stands for. -/
def declaredType (scopes : Scopes) (name : Located Name) : Read Ty := do
  let ⟨d, _⟩ ← Read.checked (scopes.lookup name)
  match d with
  | .type _ t => return t
  | _ => reject name.position (.unexpectedType (.notType name.value))

/-- The scalar type that a token is. -/
def scalar? : Token.Kind → Option Scalar
  | .keyword .kwInteger => some .integer
  | .keyword .kwDouble => some .double
  | .keyword .kwBoolean => some .boolean
  | _ => none

mutual

/-- A type. -/
def typeName (scopes : Scopes) (c : Cursor) : Read (Taken c Ty) := do
  match ← c.accept scalar? with
  | some ⟨(s, _), c₁, h₁⟩ => return ⟨.scalar s, c₁, h₁⟩
  | none =>
    match ← c.acceptKeyword .kwArray with
    | some ⟨_, c₁, h₁⟩ =>
      let ⟨_, c₂, h₂⟩ ← c₁.symbol .openSquare
      let ⟨rs, c₃, h₃⟩ ← ranges scopes c₂
      let ⟨_, c₄, h₄⟩ ← c₃.symbol .closeSquare
      let ⟨_, c₅, h₅⟩ ← c₄.keyword .kwOf
      let ⟨element, c₆, h₆⟩ ← typeName scopes c₅
      return Taken.mk (nestArrays rs element) c₆ h₆ |>.after h₅ |>.after h₄ |>.after h₃ |>.after h₂
        |>.after h₁
    | none =>
      match ← c.acceptKeyword .kwRecord with
      | some ⟨_, c₁, h₁⟩ =>
        let ⟨fields, c₂, h₂⟩ ← fieldList scopes [] c₁
        let ⟨_, c₃, h₃⟩ ← c₂.keyword .kwEnd
        return Taken.mk (.record fields) c₃ h₃ |>.past h₂ |>.after h₁
      | none =>
        if c.current.kind = .identifier then
          let ⟨name, c₁, h₁⟩ ← c.identifier
          let t ← declaredType scopes name
          return ⟨t, c₁, h₁⟩
        else c.unexpected
termination_by c.size

/-- Groups of fields with semicolons between them, behind the fields read before. -/
def fieldList (scopes : Scopes) (fields : List (Name × Ty)) (c : Cursor) :
    Read (Passed c (List (Name × Ty))) := do
  if c.current.kind = .identifier then
    let ⟨names, c₁, h₁⟩ ← c.identifiers
    let ⟨_, c₂, h₂⟩ ← c₁.symbol .colon
    let ⟨t, c₃, h₃⟩ ← typeName scopes c₂
    let fields ← addFields fields t names
    match ← c₃.acceptSymbol .semicolon with
    | none => return Taken.mk fields c₃ h₃ |>.after h₂ |>.after h₁ |>.passed
    | some ⟨_, c₄, h₄⟩ =>
      let ⟨fields, c₅, h₅⟩ ← fieldList scopes fields c₄
      return Passed.mk fields c₅ h₅ |>.after h₄ |>.after h₃ |>.after h₂ |>.after h₁ |>.passed
  else return .stay fields
termination_by c.size

end

end MiniPascal.Grammar
