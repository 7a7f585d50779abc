import MiniPascal.Scope.Basic

/-! The scopes visible at one point. A routine has no access to the variables of the routines around
it, since these live in other frames. -/

namespace MiniPascal

/-- The two scopes of a routine. -/
structure Level where
  params : Scope
  locals : Scope

/-- The visible scopes: that of the main program, and the levels with the innermost first. -/
structure Scopes where
  globals : Scope
  levels : List Level

/-- A name's declaration and where a variable of that scope lives. -/
structure Resolved where
  declaration : Declaration
  storage : Storage

/-- What a scope belongs to. -/
inductive Region where
  | global | params | locals
  deriving DecidableEq, Repr

namespace Level

/-- What a name is declared as in the routine's own declarations or else its parameters. -/
def get? (l : Level) (name : Name) : Option Declaration :=
  match l.locals.get? name with
  | some d => some d
  | none => l.params.get? name

/-- The routine a name is declared as, in the same order; other declarations are passed over. -/
def getRoutine? (l : Level) (name : Name) : Option Routine :=
  match l.locals.get? name, l.params.get? name with
  | some (.routine r), _ => some r
  | _, some (.routine r) => some r
  | _, _ => none

end Level

namespace Scopes

/-- Only the main program, with nothing declared. -/
def empty : Scopes := ⟨.empty, []⟩

/-- How many routines are around. -/
def depth (s : Scopes) : Nat := s.levels.length

/-- What the innermost scope belongs to. -/
def region (s : Scopes) : Region := if s.levels.isEmpty then .global else .locals

/-- The innermost scope. -/
def top (s : Scopes) : Scope :=
  match s.levels with
  | [] => s.globals
  | l :: _ => l.locals

/-- Replaces the innermost scope. -/
def withTop (s : Scopes) (scope : Scope) : Scopes :=
  match s.levels with
  | [] => { s with globals := scope }
  | l :: ls => { s with levels := { l with locals := scope } :: ls }

/-- The parameters of the innermost routine. -/
def params (s : Scopes) : Scope :=
  match s.levels with
  | [] => .empty
  | l :: _ => l.params

/-- Declares a name in the innermost scope without a look at the parameters. -/
def insertTop (s : Scopes) (name : Name) (d : Declaration) : Checked Scopes := do
  let scope ← s.top.insert name d
  return s.withTop scope

/-- Declares a name in the innermost scope. The parameters of a routine cannot be hidden by its own
declarations. -/
def declare (s : Scopes) (name : Name) (d : Declaration) : Checked Scopes :=
  if s.params.contains name then .error ⟨d.position, .duplicateDeclaration name⟩
  else s.insertTop name d

/-- Declares names in order up to the first that is refused, and tells why it was. -/
def declareAll (s : Scopes) : List (Name × Declaration) → Scopes × Option (Located SemanticError)
  | [] => (s, none)
  | (name, d) :: entries =>
    match s.declare name d with
    | .ok s' => declareAll s' entries
    | .error e => (s, some e)

/-- Declares all of a scope in the innermost one, up to the first that is refused. -/
def merge (s : Scopes) (scope : Scope) : Scopes × Option (Located SemanticError) :=
  s.declareAll scope.entries

/-- Enters a routine with these parameters. -/
def enter (s : Scopes) (params : Scope) : Scopes :=
  { s with levels := ⟨params, .empty⟩ :: s.levels }

/-- Leaves the innermost routine and gives its own declarations; the main program is not left. -/
def leave (s : Scopes) : Scope × Scopes :=
  match s.levels with
  | [] => (.empty, s)
  | l :: ls => (l.locals, { s with levels := ls })

/-- What a name is declared as, and how many routines are around that declaration. -/
def find? (s : Scopes) (name : Name) : Option (Declaration × Nat) :=
  go s.levels
where
  /-- Looks through levels from the innermost to the main program. -/
  go : List Level → Option (Declaration × Nat)
    | [] => (s.globals.get? name).map fun d => (d, 0)
    | l :: ls =>
      match l.get? name with
      | some d => some (d, ls.length + 1)
      | none => go ls

/-- Whether a declaration is that of a variable. -/
def isVariable : Declaration → Bool
  | .var .. => true
  | _ => false

/-- Resolves a name. A variable of an enclosing routine is refused. -/
def lookup (s : Scopes) (name : Located Name) : Checked Resolved :=
  match s.find? name.value with
  | none => .error ⟨name.position, .unknownIdentifier name.value⟩
  | some (d, depth) =>
    if isVariable d && depth ≠ 0 && depth ≠ s.depth then
      .error ⟨name.position, .capturedVariable name.value⟩
    else .ok ⟨d, if depth = 0 then .global else .routine⟩

/-- Resolves a name among routines only. Inside a function its name stands for the result, and this
is how the function is found all the same. -/
def lookupRoutine (s : Scopes) (name : Located Name) : Checked Routine :=
  match s.levels.findSome? (·.getRoutine? name.value), s.globals.get? name.value with
  | some r, _ => .ok r
  | none, some (.routine r) => .ok r
  | none, _ => .error ⟨name.position, .unknownIdentifier name.value⟩

end Scopes

end MiniPascal
