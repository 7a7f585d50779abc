import MiniPascal.Double.Basic
import MiniPascal.Name
import MiniPascal.Source.Position

namespace MiniPascal

/-- The types of single values. -/
inductive Scalar where
  | integer | double | boolean
  deriving DecidableEq, Repr

/-- Where a variable lives. -/
inductive Storage where
  /-- A variable of the main program. -/
  | global
  /-- A parameter or a variable of the current routine. -/
  | routine
  deriving DecidableEq, Repr

/-- Operators between two operands. -/
inductive BinOp where
  | add | sub | mul | divide | div | mod | and | or
  | equal | notEqual | less | lessEqual | greater | greaterEqual
  deriving DecidableEq, Repr

/-- Operators in front of one operand. -/
inductive UnaryOp where
  | plus | minus | not
  deriving DecidableEq, Repr

/-- The type's name. -/
def Scalar.describe : Scalar → String
  | .integer => "integer"
  | .double => "double"
  | .boolean => "boolean"

/-- The operator as it is written. -/
def BinOp.describe : BinOp → String
  | .add => "+" | .sub => "-" | .mul => "*" | .divide => "/" | .div => "div" | .mod => "mod"
  | .and => "and" | .or => "or" | .equal => "=" | .notEqual => "<>" | .less => "<"
  | .lessEqual => "<=" | .greater => ">" | .greaterEqual => ">="

/-- Whether the operator compares its operands. -/
def BinOp.isRelational : BinOp → Bool
  | .equal | .notEqual | .less | .lessEqual | .greater | .greaterEqual => true
  | _ => false

/-- The operator as it is written. -/
def UnaryOp.describe : UnaryOp → String
  | .plus => "+" | .minus => "-" | .not => "not"

mutual

/-- A type. Names of declared types have been replaced by what they stand for. -/
inductive Ty where
  | scalar (s : Scalar)
  | array (low high : Expr) (element : Ty)
  | record (fields : List (Name × Ty))

/-- An expression with its position and, where its form leaves it open, its type. -/
inductive Expr where
  | int (position : Position) (value : UInt64)
  | double (position : Position) (value : Double)
  | bool (position : Position) (value : Bool)
  | var (position : Position) (type : Ty) (name : Name) (storage : Storage)
  | unary (position : Position) (type : Ty) (op : UnaryOp) (operand : Expr)
  | binary (position : Position) (type : Ty) (op : BinOp) (left right : Expr)
  /-- A call of a function whose parameters have the types `params`. -/
  | call (position : Position) (type : Ty) (name : Name) (symbol : String) (args : List Expr)
      (params : List Ty)
  | index (position : Position) (type : Ty) (array index : Expr)
  /-- The field in place `slot` of a record. -/
  | field (position : Position) (type : Ty) (record : Expr) (name : Name) (slot : Nat)

end

namespace Ty

/-- Whole numbers. -/
abbrev integer : Ty := .scalar .integer

/-- Floating-point numbers. -/
abbrev double : Ty := .scalar .double

/-- Truth values. -/
abbrev boolean : Ty := .scalar .boolean

instance : Inhabited Ty := ⟨integer⟩

/-- The scalar a type is, if it is one. -/
def scalar? : Ty → Option Scalar
  | scalar s => some s
  | _ => none

/-- Whether the type is one of numbers. -/
def isNumeric : Ty → Bool
  | scalar .integer | scalar .double => true
  | _ => false

/-- Whether the type is that of integers. -/
def isInteger : Ty → Bool
  | scalar .integer => true
  | _ => false

/-- Whether the type is a record. -/
def isRecord : Ty → Bool
  | record _ => true
  | _ => false

end Ty

namespace Expr

/-- Where the expression stands; for an operation, where its operator does. -/
def position : Expr → Position
  | int p _ | double p _ | bool p _ | var p .. | unary p .. | binary p .. | call p ..
  | index p .. | field p .. => p

/-- The type of the expression's value. -/
def type : Expr → Ty
  | int .. => .integer
  | double .. => .double
  | bool .. => .boolean
  | var _ t .. | unary _ t .. | binary _ t .. | call _ t .. | index _ t .. | field _ t .. => t

/-- The value of an integer literal as a signed number, if it is one of 64 bits. -/
def signed? (value : UInt64) : Option Int64 :=
  if value.toNat ≤ 0x7fffffffffffffff then some value.toInt64 else none

/-- The value of an integer literal, possibly with signs in front. -/
def asConstant : Expr → Option Int64
  | int _ value => signed? value
  | unary _ _ .minus operand => operand.asConstant.map (-·)
  | unary _ _ .plus operand => operand.asConstant
  | _ => none

/-- Whether the expression names a place that can be assigned to. -/
def isDesignator : Expr → Bool
  | var .. | index .. | field .. => true
  | _ => false

end Expr

namespace Ty

/-- The bounds of an array type, if they are constant. -/
def bounds : Ty → Option (Int64 × Int64)
  | array low high _ => do return (← low.asConstant, ← high.asConstant)
  | _ => none

/-- The number of elements of an array type, if its bounds are constant. -/
def length? (t : Ty) : Option UInt64 :=
  t.bounds.map fun (low, high) => (high - low + 1).toUInt64

/-- The place and the type of a field in a list of fields. -/
def findField (name : Name) : List (Name × Ty) → Option (Nat × Ty)
  | [] => none
  | (n, t) :: fields =>
    if n == name then some (0, t) else (findField name fields).map fun (slot, u) => (slot + 1, u)

/-- The place and the type of a field of a record type. -/
def field? (t : Ty) (name : Name) : Option (Nat × Ty) :=
  match t with
  | record fields => findField name fields
  | _ => none

mutual

/-- Whether two types have the same structure, whatever the positions in their bounds and the
spelling of their fields. -/
def sameShape : Ty → Ty → Bool
  | scalar s, scalar t => s = t
  | array low high element, array low' high' element' =>
    (array low high element).bounds = (array low' high' element').bounds
      && element.sameShape element'
  | record fields, record fields' => sameFields fields fields'
  | _, _ => false

/-- Whether two lists of fields have the same names and types of the same structure. -/
def sameFields : List (Name × Ty) → List (Name × Ty) → Bool
  | [], [] => true
  | (n, t) :: fields, (n', t') :: fields' => n == n' && t.sameShape t' && sameFields fields fields'
  | _, _ => false

end

mutual

/-- The type as messages name it. -/
def describe : Ty → String
  | scalar s => s.describe
  | array low high element =>
    match (array low high element).bounds with
    | some (l, h) => s!"array[{l.toInt}..{h.toInt}] of {element.describe}"
    | none => "array of " ++ element.describe
  | record fields => "record " ++ describeFields fields ++ "end"

/-- Fields, each with a semicolon and a blank behind it. -/
def describeFields : List (Name × Ty) → String
  | [] => ""
  | (n, t) :: fields => n.spelling ++ ": " ++ t.describe ++ "; " ++ describeFields fields

end

end Ty

end MiniPascal
