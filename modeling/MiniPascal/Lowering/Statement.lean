import MiniPascal.Lowering.Expression

/-! Lowering statements. When all of a loop has been generated, the transitions behind the start of
its body get their targets. -/

namespace MiniPascal.Lowering

variable {κ : Type} [Counter κ]

/-- Lowers what is written to its part of the format and the argument for it. Only scalars can be
written. -/
def writtenArg : WriteArg → StepOf κ (String × List (Ir.Ty × Ir.Operand))
  | .text s => do return ("%s", [(.ptr, .global (← textGlobal s))])
  | .value e =>
    match e.type.scalar? with
    | some .integer => do return ("%d", [(.i32, ← value e)])
    | some .double => do return ("%f", [(.double, ← value e)])
    | some .boolean => do
      let v ← value e
      let output ← newName e.position ".cast"
      push (.cast output .zext .i1 v .i32)
      return ("%d", [(.i32, .local output)])
    | none => return ("", [])

/-- Lowers all that is written, in order. -/
def writtenArgs : List WriteArg → StepOf κ (String × List (Ir.Ty × Ir.Operand))
  | [] => return ("", [])
  | arg :: args => do
    let (directive, argument) ← writtenArg arg
    let (format, arguments) ← writtenArgs args
    return (directive ++ format, argument ++ arguments)

/-- Lowers a statement that writes; nothing to write needs no call. -/
def write (newline : Bool) (args : List WriteArg) : StepOf κ Unit := do
  let (format, arguments) ← writtenArgs args
  let format := if newline then format ++ "\n" else format
  if format ≠ "" then
    let name ← formatGlobal format
    modify fun g => { g with usesPrintf := true }
    push (.call none .i32 "printf" (some [.ptr]) ((.ptr, .global name) :: arguments))

/-- Lowers an assignment: first the value, then the place. -/
def assign (target e : Expr) : StepOf κ Unit := do
  let v ← valueIn e target.type
  let slot ← place target
  push (.store (machineType target.type) v slot)

/-- Stores the first value of a counter less one. -/
def loopStart (p : Position) (target first : Expr) : StepOf κ Unit := do
  let v ← valueIn first .integer
  let slot ← place target
  push (.store .i32 v slot)
  let initial ← newName p ".pre"
  push (.load initial .i32 slot)
  let decremented ← newName p ".dec"
  push (.binary decremented .sub .i32 (.local initial) (.int 1))
  push (.store .i32 (.local decremented) slot)

/-- Adds one to a counter, whose place is found anew, and compares it with the bound. -/
def loopTest (p : Position) (target bound : Expr) : StepOf κ Ir.Operand := do
  let slot ← place target
  let current ← newName p ".cur"
  push (.load current .i32 slot)
  let next ← newName p ".next"
  push (.binary next .add .i32 (.local current) (.int 1))
  push (.store .i32 (.local next) slot)
  let limit ← valueIn bound .integer
  let compare ← newName p ".cmp"
  push (.compare compare .sle .i32 (.local next) limit)
  return .local compare

mutual

/-- Lowers a statement. -/
def statement : Stmt → StepOf κ Unit
  | .block body => statements body
  | .ifElse condition yes none => do
    let test ← value condition
    let yesLabel ← newLabel
    let merge ← newLabel
    push (.jumpIf test yesLabel merge)
    push (.label yesLabel)
    statement yes
    push (.jump merge)
    push (.label merge)
  | .ifElse condition yes (some no) => do
    let test ← value condition
    let yesLabel ← newLabel
    let noLabel ← newLabel
    let merge ← newLabel
    push (.jumpIf test yesLabel noLabel)
    push (.label yesLabel)
    statement yes
    push (.jump merge)
    push (.label noLabel)
    statement no
    push (.jump merge)
    push (.label merge)
  | .while condition body => do
    let check ← newLabel
    let start ← newLabel
    let exit ← newLabel
    push (.jump check)
    push (.label check)
    let test ← value condition
    push (.jumpIf test start exit)
    let index ← here
    push (.label start)
    statement body
    push (.jump check)
    push (.label exit)
    closeLoop index exit check
  | .repeatUntil body condition => do
    let start ← newLabel
    let check ← newLabel
    let exit ← newLabel
    push (.jump start)
    let index ← here
    push (.label start)
    statement body
    push (.jump check)
    push (.label check)
    let test ← value condition
    push (.jumpIf test exit start)
    push (.label exit)
    closeLoop index exit check
  | .forTo p target first bound body => do
    loopStart p target first
    let check ← newLabel
    let start ← newLabel
    let exit ← newLabel
    push (.jump check)
    push (.label check)
    let test ← loopTest p target bound
    push (.jumpIf test start exit)
    let index ← here
    push (.label start)
    statement body
    push (.jump check)
    push (.label exit)
    closeLoop index exit check
  | .assign target e => assign target e
  | .call _ symbol args params returns => do
    let arguments ← lowerArguments args params
    push (.call none ((returns.map machineType).getD .void) (functionName symbol) none arguments)
  | .write newline args => write newline args
  | .transition kind _ => push (.transition kind none)

/-- Lowers statements in order. -/
def statements : List Stmt → StepOf κ Unit
  | [] => return
  | s :: ss => do
    statement s
    statements ss

end

end MiniPascal.Lowering
