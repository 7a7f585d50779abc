import MiniPascal.Grammar.Program
import MiniPascal.Lowering.Statement

/-! Lowering programs: the functions of the routines in preorder, and `main` behind all of them. -/

namespace MiniPascal

namespace Lowering

variable {κ : Type} [Counter κ]

/-- Reserves slots for parameters, stores the arguments there, and gives the parameters of the
function. -/
def parameterSlots : List (Name × Ty) → StepOf κ (List (String × Ir.Ty))
  | [] => return []
  | (name, t) :: params => do
    alloca (slotName name) (machineType t)
    push (.store (machineType t) (.local (argumentName name)) (.local (slotName name)))
    return (argumentName name, machineType t) :: (← parameterSlots params)

/-- Reserves slots for variables. -/
def variableSlots : List (Name × Ty) → StepOf κ Unit
  | [] => return
  | (name, t) :: vars => do
    alloca (slotName name) (machineType t)
    variableSlots vars

/-- The last name of a routine's symbol, which is its own. -/
def ownName (symbol : String) : String :=
  String.ofList (symbol.toList.reverse.takeWhile (· ≠ '.')).reverse

/-- Returns from a routine; the result of a function lies in the variable of its name. -/
def returnFrom (symbol : String) : Option Ty → StepOf κ Ir.Ty
  | some t => do
    push (.load "retval" (machineType t) (.local (ownName symbol ++ ".addr")))
    push (.ret (some (machineType t, .local "retval")))
    return machineType t
  | none => do
    push (.ret none)
    return .void

/-- Lowers a routine with the given own variables and statements, but not those declared in it. -/
def routineFunction (symbol : String) (params : Scope) (returns : Option Ty)
    (vars : List (Name × Ty)) (body : List Stmt) : StepOf κ Unit := do
  beginFunction
  let parameters ← parameterSlots params.vars
  variableSlots vars
  statements body
  let t ← returnFrom symbol returns
  endFunction (functionName symbol) t parameters

mutual

/-- Lowers a routine and then those declared in it. -/
def routine : Routine → StepOf κ Unit
  | ⟨_, symbol, params, returns, none, _⟩ => routineFunction symbol params returns [] []
  | ⟨_, symbol, params, returns, some ⟨⟨entries⟩, body⟩, _⟩ => do
    routineFunction symbol params returns (Scope.vars ⟨entries⟩) body
    routines entries

/-- Lowers the routines among some declarations in order. -/
def routines : List (Name × Declaration) → StepOf κ Unit
  | [] => return
  | (_, d) :: entries => do
    declared d
    routines entries

/-- Lowers a declaration if it is a routine. -/
def declared : Declaration → StepOf κ Unit
  | .routine r => routine r
  | .var .. | .const .. | .type .. => return

end

/-- The globals of variables. -/
def globalVariables (vars : List (Name × Ty)) : List Ir.Global :=
  vars.map fun (name, t) => .variable (globalName name) (machineType t)

/-- Lowers the statements of the program. -/
def mainFunction (body : List Stmt) : StepOf κ Unit := do
  beginFunction
  statements body
  push (.ret (some (.i32, .int 0)))
  endFunction "main" .i32 []

/-- Lowers a program. -/
def program (p : Program) : StepOf κ Unit := do
  modify fun g => { g with globals := g.globals ++ globalVariables p.scope.vars }
  routines p.scope.entries
  mainFunction p.statements

/-- The function that writes. -/
def printf : Ir.External := ⟨"printf", .i32, [.ptr], true⟩

/-- The program that has been generated. -/
def Generator.finish (g : Generator κ) : Ir.Program :=
  ⟨if g.usesPrintf then [printf] else [], g.globals, g.functions⟩

end Lowering

namespace Program

/-- The intermediate representation of a program. -/
def lower (p : Program) : Ir.Program :=
  ((Lowering.program p).run (.empty : Lowering.Generator)).2.finish

/-- The intermediate representation of the program of a text. -/
def compile (text name : String) : Read Ir.Program := do
  let p ← ofText text name
  return p.lower

end Program

end MiniPascal
