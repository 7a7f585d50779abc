import MiniPascal.Lowering.Generator

/-! Lowering expressions to places in memory or to values. -/

namespace MiniPascal.Lowering

/-- What a lowered expression has become. -/
inductive Lowered where
  | place (slot : Ir.Operand)
  | value (v : Ir.Operand)

/-- The operation or comparison that an operator becomes. -/
inductive Operation where
  | arithmetic (op : Ir.Opcode)
  | comparison (predicate : Ir.Predicate)

/-- What an operator becomes on integers or truth values, or on doubles. -/
def operationOf (op : BinOp) (isDouble : Bool) : Operation :=
  match op, isDouble with
  | .add, false => .arithmetic .add
  | .add, true => .arithmetic .fadd
  | .sub, false => .arithmetic .sub
  | .sub, true => .arithmetic .fsub
  | .mul, false => .arithmetic .mul
  | .mul, true => .arithmetic .fmul
  | .divide, _ => .arithmetic .fdiv
  | .div, _ => .arithmetic .sdiv
  | .mod, _ => .arithmetic .srem
  | .and, _ => .arithmetic .and
  | .or, _ => .arithmetic .or
  | .equal, false => .comparison .eq
  | .equal, true => .comparison .oeq
  | .notEqual, false => .comparison .ne
  | .notEqual, true => .comparison .one
  | .less, false => .comparison .slt
  | .less, true => .comparison .olt
  | .lessEqual, false => .comparison .sle
  | .lessEqual, true => .comparison .ole
  | .greater, false => .comparison .sgt
  | .greater, true => .comparison .ogt
  | .greaterEqual, false => .comparison .sge
  | .greaterEqual, true => .comparison .oge

/-- Whether a type is that of doubles. -/
def isDouble (t : Ty) : Bool := t.scalar? = some .double

/-- The type in which both operands of an operator are evaluated, where `result` is the type of the
whole operation. -/
def operandType (op : BinOp) (left right result : Ty) : Ty :=
  if op.isRelational then
    if !left.isNumeric then .boolean
    else if isDouble left || isDouble right then .double
    else .integer
  else if op = .divide then .double
  else result

variable {κ : Type} [Counter κ]

/-- The value of a lowered expression, loaded if it is a place. -/
def asValue (e : Expr) : Lowered → StepOf κ Ir.Operand
  | .value v => return v
  | .place slot => do
    let output ← newName e.position ""
    push (.load output (machineType e.type) slot)
    return .local output

/-- The place of a lowered expression; a value goes into a slot of its own. -/
def asPlace (e : Expr) : Lowered → StepOf κ Ir.Operand
  | .place slot => return slot
  | .value v => do
    let slot ← newName e.position ".tmp"
    alloca slot (machineType e.type)
    push (.store (machineType e.type) v (.local slot))
    return .local slot

/-- The value of a lowered expression where a value of type `target` is needed: an integer is
widened for a double, and a literal without an instruction. -/
def asTyped (e : Expr) (target : Ty) (r : Lowered) : StepOf κ Ir.Operand := do
  if isDouble target && e.type.isInteger then
    match e with
    | .int _ value => return .widened value
    | e =>
      let v ← asValue e r
      let output ← newName e.position ".cast"
      push (.cast output .sitofp .i32 v .double)
      return .local output
  else asValue e r

/-- The address of a part of an aggregate. -/
def part (p : Position) (aggregate : Ty) (base index : Ir.Operand) : StepOf κ Ir.Operand := do
  let output ← newName p ".ptr"
  push (.element output (machineType aggregate) base [.int 0, index])
  return .local output

/-- An index counted from zero. -/
def rebase (p : Position) (array : Ty) (index : Ir.Operand) : StepOf κ Ir.Operand := do
  let low := (array.bounds.map Prod.fst).getD 0
  if low = 0 then return index
  else
    let output ← newName p ".idx"
    push (.binary output .sub .i32 index (.int low))
    return .local output

/-- Applies a unary operator to a value of the given type. -/
def applyUnary (p : Position) (op : UnaryOp) (operand : Ty) (v : Ir.Operand) :
    StepOf κ Ir.Operand := do
  match op, operand.scalar? with
  | .plus, _ => return v
  | .minus, some .double =>
    let output ← newName p ""
    push (.negate output v)
    return .local output
  | .minus, _ =>
    let output ← newName p ""
    push (.binary output .sub .i32 (.int 0) v)
    return .local output
  | .not, some .boolean =>
    let output ← newName p ""
    push (.binary output .xor .i1 v (.bool true))
    return .local output
  | .not, _ =>
    let output ← newName p ""
    push (.binary output .xor .i32 v (.int (-1)))
    return .local output

/-- Applies a binary operator to two values of one type. -/
def applyBinary (p : Position) (op : BinOp) (t : Ty) (lhs rhs : Ir.Operand) :
    StepOf κ Ir.Operand := do
  let output ← newName p ""
  push <| match operationOf op (isDouble t) with
    | .arithmetic opcode => .binary output opcode (machineType t) lhs rhs
    | .comparison predicate => .compare output predicate (machineType t) lhs rhs
  return .local output

mutual

/-- Lowers an expression. -/
def lower : Expr → StepOf κ Lowered
  | .int _ value => return .value (.int value.toInt64)
  | .double _ value => return .value (.double value)
  | .bool _ value => return .value (.bool value)
  | .var _ _ name .global => return .place (.global (globalName name))
  | .var _ _ name .routine => return .place (.local (slotName name))
  | .unary p _ op e => do
    let v ← asValue e (← lower e)
    return .value (← applyUnary p op e.type v)
  | .binary p t op left right => do
    let common := operandType op left.type right.type t
    let lhs ← asTyped left common (← lower left)
    let rhs ← asTyped right common (← lower right)
    return .value (← applyBinary p op common lhs rhs)
  | .call p t _ symbol args params => do
    let output ← newName p ""
    let arguments ← lowerArguments args params
    push (.call (some output) (machineType t) (functionName symbol) none arguments)
    return .value (.local output)
  | .index p _ array index => do
    let base ← asPlace array (← lower array)
    let i ← asValue index (← lower index)
    let i ← rebase p array.type i
    return .place (← part p array.type base i)
  | .field p _ record _ slot => do
    let base ← asPlace record (← lower record)
    return .place (← part p record.type base (.int (Int64.ofNat slot)))

/-- Lowers the arguments of a call to values of the parameters' types. -/
def lowerArguments : List Expr → List Ty → StepOf κ (List (Ir.Ty × Ir.Operand))
  | e :: args, t :: params => do
    let v ← asTyped e t (← lower e)
    return (machineType t, v) :: (← lowerArguments args params)
  | _, _ => return []

end

/-- Lowers an expression to its value. -/
def value (e : Expr) : StepOf κ Ir.Operand := do asValue e (← lower e)

/-- Lowers an expression to its value in a type. -/
def valueIn (e : Expr) (target : Ty) : StepOf κ Ir.Operand := do asTyped e target (← lower e)

/-- Lowers an expression to its place. -/
def place (e : Expr) : StepOf κ Ir.Operand := do asPlace e (← lower e)

end MiniPascal.Lowering
