import MiniPascal.Syntax.Stmt

namespace MiniPascal

mutual

/-- What a name stands for. -/
inductive Declaration where
  | var (position : Position) (type : Ty)
  | const (position : Position) (value : Expr)
  | type (position : Position) (aliased : Ty)
  | routine (r : Routine)

/-- A procedure, or a function if it has a result. -/
structure Routine where
  position : Position
  /-- The names of the enclosing routines and its own, in lower case and joined by dots. -/
  symbol : String
  params : Scope
  returns : Option Ty
  /-- Absent until the body has been read. -/
  body : Option Block
  /-- Whether the body is still to come. -/
  forward : Bool

/-- The declarations of a routine's own and its statements. -/
structure Block where
  scope : Scope
  statements : List Stmt

/-- Declarations and their names, in the order in which they were made. -/
structure Scope where
  entries : List (Name × Declaration)

end

/-- A program. -/
structure Program where
  name : String
  scope : Scope
  statements : List Stmt

/-- Where the declaration stands. -/
def Declaration.position : Declaration → Position
  | var p _ | const p _ | type p _ => p
  | routine r => r.position

instance : Inhabited Scope := ⟨⟨[]⟩⟩

end MiniPascal
