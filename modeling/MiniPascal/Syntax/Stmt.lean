import MiniPascal.Syntax.Expr

namespace MiniPascal

/-- How a statement leaves the current round of a loop. -/
inductive Transition where
  /-- Leaves the loop. -/
  | breakLoop
  /-- Goes on to the next test of the loop. -/
  | continueLoop
  deriving DecidableEq, Repr

/-- What `write` and `writeln` print. -/
inductive WriteArg where
  | value (e : Expr)
  | text (s : String)

/-- A statement. -/
inductive Stmt where
  | block (body : List Stmt)
  | ifElse (condition : Expr) (yes : Stmt) (no : Option Stmt)
  /-- Counts `target` up from `value`; `bound` is evaluated anew before every round. -/
  | forTo (position : Position) (target value bound : Expr) (body : Stmt)
  | while (condition : Expr) (body : Stmt)
  /-- Runs until the condition holds. -/
  | repeatUntil (body : Stmt) (condition : Expr)
  | assign (target value : Expr)
  | call (name : Name) (symbol : String) (args : List Expr) (params : List Ty)
      (returns : Option Ty)
  | write (newline : Bool) (args : List WriteArg)
  | transition (kind : Transition) (position : Position)

/-- The empty statement. -/
def Stmt.empty : Stmt := .block []

end MiniPascal
