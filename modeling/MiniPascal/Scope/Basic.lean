import MiniPascal.Syntax.Declaration
import MiniPascal.Typing.Error

/-! Scopes as ordered maps from names to declarations, ignoring the case of letters. -/

namespace MiniPascal

namespace Scope

/-- The scope without declarations. -/
def empty : Scope := ⟨[]⟩

/-- The number of declarations. -/
def size (s : Scope) : Nat := s.entries.length

/-- The names in order. -/
def names (s : Scope) : List Name := s.entries.map Prod.fst

/-- Whether a name is declared. -/
def contains (s : Scope) (name : Name) : Bool := s.entries.any fun e => e.1 == name

/-- What a name is declared as. -/
def get? (s : Scope) (name : Name) : Option Declaration :=
  (s.entries.find? fun e => e.1 == name).map Prod.snd

/-- Puts a declaration behind all others; a name that is there already is refused. -/
def insert (s : Scope) (name : Name) (d : Declaration) : Checked Scope :=
  if s.contains name then .error ⟨d.position, .duplicateDeclaration name⟩
  else .ok ⟨s.entries ++ [(name, d)]⟩

/-- Changes what a name is declared as, and nothing if it is not declared. -/
def modify (s : Scope) (name : Name) (f : Declaration → Declaration) : Scope :=
  ⟨s.entries.map fun e => if e.1 == name then (e.1, f e.2) else e⟩

/-- Inserts declarations in order up to the first that is refused, and tells why it was. -/
def insertAll (s : Scope) : List (Name × Declaration) → Scope × Option (Located SemanticError)
  | [] => (s, none)
  | (name, d) :: entries =>
    match s.insert name d with
    | .ok s' => insertAll s' entries
    | .error e => (s, some e)

/-- Inserts the declarations of another scope in order up to the first that is refused. -/
def update (s other : Scope) : Scope × Option (Located SemanticError) := s.insertAll other.entries

/-- The variables in order, with their types. -/
def vars (s : Scope) : List (Name × Ty) :=
  s.entries.filterMap fun (name, d) => match d with
    | .var _ t => some (name, t)
    | _ => none

/-- The routines in order. -/
def routines (s : Scope) : List (Name × Routine) :=
  s.entries.filterMap fun (name, d) => match d with
    | .routine r => some (name, r)
    | _ => none

end Scope

namespace Routine

/-- The types of the parameters in order. -/
def paramTypes (r : Routine) : List Ty := r.params.vars.map Prod.snd

/-- Whether two optional results have the same structure. -/
def sameResult : Option Ty → Option Ty → Bool
  | none, none => true
  | some t, some t' => t.sameShape t'
  | _, _ => false

/-- Whether two parameters are variables of the same name and structure. -/
def sameParam (p q : Name × Declaration) : Bool :=
  match p, q with
  | (m, .var _ t), (n, .var _ u) => m == n && t.sameShape u
  | _, _ => false

/-- Whether two routines can be declaration and definition of one: the same parameters in the same
order, and the same result. -/
def sameSignature (r s : Routine) : Bool :=
  sameResult r.returns s.returns
    && r.params.size = s.params.size
    && (r.params.entries.zip s.params.entries).all fun (p, q) => sameParam p q

end Routine

end MiniPascal
