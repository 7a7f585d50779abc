import MiniPascal.Typing.Error

/-! The type rules of operators, selectors and assignments, and the constructors of expressions that
apply them. -/

namespace MiniPascal

/-- The type of the result of a binary operator, if it accepts its operands. -/
def BinOp.result? (op : BinOp) (left right : Ty) : Option Scalar :=
  let numeric := left.isNumeric && right.isNumeric
  match op, left.scalar?, right.scalar? with
  | .add, some .integer, some .integer
  | .sub, some .integer, some .integer
  | .mul, some .integer, some .integer
  | .div, some .integer, some .integer
  | .mod, some .integer, some .integer
  | .and, some .integer, some .integer
  | .or, some .integer, some .integer => some .integer
  | .and, some .boolean, some .boolean
  | .or, some .boolean, some .boolean
  | .equal, some .boolean, some .boolean
  | .notEqual, some .boolean, some .boolean => some .boolean
  | .div, _, _ | .mod, _, _ | .and, _, _ | .or, _, _ => none
  | .add, _, _ | .sub, _, _ | .mul, _, _ | .divide, _, _ =>
    if numeric then some .double else none
  | _, _, _ => if numeric then some .boolean else none

/-- Whether a unary operator accepts its operand, whose type the result has. -/
def UnaryOp.accepts (op : UnaryOp) (operand : Ty) : Bool :=
  match op with
  | .plus | .minus => operand.isNumeric
  | .not => operand.scalar? = some .integer || operand.scalar? = some .boolean

namespace Typing

/-- Fails with a fault of types. -/
def mismatch {α : Type} (p : Position) (fault : TypeFault) : Checked α :=
  .error ⟨p, .unexpectedType fault⟩

/-- The type of a binary operation. -/
def binary (op : BinOp) (left right : Ty) (p : Position) : Checked Ty :=
  match op.result? left right with
  | some s => .ok (.scalar s)
  | none => mismatch p (.binary left op right)

/-- The type of a unary operation. -/
def unary (op : UnaryOp) (operand : Ty) (p : Position) : Checked Ty :=
  if op.accepts operand then .ok operand else mismatch p (.unary op operand)

/-- The type of an element of an array. -/
def element (array index : Ty) (p : Position) : Checked Ty :=
  match array with
  | .array _ _ element =>
    if index.isInteger then .ok element else mismatch p (.arrayIndex index)
  | _ => mismatch p (.notArray array)

/-- The place and the type of a field of a record. -/
def field (record : Ty) (name : Name) (p : Position) : Checked (Nat × Ty) :=
  if record.isRecord then
    match record.field? name with
    | some found => .ok found
    | none => .error ⟨p, .unknownIdentifier name⟩
  else mismatch p (.notRecord record)

/-- Whether a value can be stored in a place: integers go into doubles, and else the structure must
be the same. -/
def assignable (target value : Ty) : Bool :=
  match target.scalar?, value.scalar? with
  | some .double, some .integer => true
  | some s, some t => s = t
  | _, _ => target.sameShape value

/-- Checks that a value can be stored in a place; the context tells what the value is there for. -/
def checkAssignable (target : Ty) (value : Expr) (context : String) : Checked Unit :=
  if assignable target value.type then .ok ()
  else mismatch value.position (.mismatch value.type context target)

/-- Checks that a condition is a truth value. -/
def checkCondition (condition : Expr) : Checked Unit :=
  if condition.type.scalar? = some .boolean then .ok ()
  else mismatch condition.position (.condition condition.type)

end Typing

namespace Expr

/-- A binary operation that obeys the type rules. -/
def checkBinary (op : BinOp) (left right : Expr) (p : Position) : Checked Expr := do
  let t ← Typing.binary op left.type right.type p
  return binary p t op left right

/-- A unary operation that obeys the type rules. -/
def checkUnary (op : UnaryOp) (operand : Expr) (p : Position) : Checked Expr := do
  let t ← Typing.unary op operand.type p
  return unary p t op operand

/-- An element of an array, selected by an integer. -/
def checkIndex (array idx : Expr) (p : Position) : Checked Expr := do
  let t ← Typing.element array.type idx.type p
  return index p t array idx

/-- A field that its record has. -/
def checkField (record : Expr) (name : Name) (p : Position) : Checked Expr := do
  let (slot, t) ← Typing.field record.type name p
  return field p t record name slot

end Expr

end MiniPascal
