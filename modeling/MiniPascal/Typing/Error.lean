import MiniPascal.Syntax.Expr
import MiniPascal.Token.Basic

/-! What can be wrong with the meaning of a program: names, types and constants. -/

namespace MiniPascal

/-- A type that does not fit where it stands, or a name of the wrong sort. -/
inductive TypeFault where
  | binary (left : Ty) (op : BinOp) (right : Ty)
  | unary (op : UnaryOp) (operand : Ty)
  | notArray (found : Ty)
  | arrayIndex (found : Ty)
  | notRecord (found : Ty)
  /-- A value that cannot be stored in a place of type `expected`. -/
  | mismatch (found : Ty) (context : String) (expected : Ty)
  | condition (found : Ty)
  | arrayBounds (found : Ty)
  | loopCounter (found : Ty)
  | written (found : Ty)
  | notType (name : Name)
  | notVariable (name : Name)
  | procedureAsValue (name : Name)

/-- Text between the quotes that messages put around types and names. -/
def quoted (s : String) : String := "`" ++ s ++ "`"

/-- The text of the fault. -/
def TypeFault.describe : TypeFault → String
  | .binary l op r => quoted l.describe ++ " " ++ op.describe ++ " " ++ quoted r.describe
  | .unary op t => op.describe ++ " " ++ quoted t.describe
  | .notArray t => quoted t.describe ++ " is not an array"
  | .arrayIndex t => quoted t.describe ++ " as array index"
  | .notRecord t => quoted t.describe ++ " is not a record"
  | .mismatch t context target =>
    quoted t.describe ++ " " ++ context ++ ", expected " ++ quoted target.describe
  | .condition t => quoted t.describe ++ " in condition, expected `boolean`"
  | .arrayBounds t => quoted t.describe ++ " in array bounds, expected `integer`"
  | .loopCounter t => quoted t.describe ++ " as loop counter, expected `integer`"
  | .written t => quoted t.describe ++ " in write"
  | .notType n => quoted n.spelling ++ " is not a type"
  | .notVariable n => quoted n.spelling ++ " is not a variable"
  | .procedureAsValue n => "procedure " ++ quoted n.spelling ++ " used as a value"

/-- An error in the meaning of a program. -/
inductive SemanticError where
  | unknownIdentifier (name : Name)
  | duplicateDeclaration (name : Name)
  | unexpectedType (fault : TypeFault)
  /-- A variable of a routine used in a routine nested in it. -/
  | capturedVariable (name : Name)
  | forwardMismatch (name : Name)
  | forwardWithoutBody (name : Name)
  | assignedConstant (name : Name)
  | argumentCount (name : Name) (expected found : Nat)
  | emptyRange (low high : Int64)
  | downwardLoop
  /-- `break` or `continue` with no loop around it. -/
  | outsideLoop (keyword : Keyword)
  | constantOverflow
  | divisionByZero
  | notConstant
  | operatorNotConstant (op : BinOp)

/-- The text of the error. -/
def SemanticError.message : SemanticError → String
  | .unknownIdentifier n => String.join ["identifier ", n.spelling, " is not declared"]
  | .duplicateDeclaration n => String.join ["duplicate declaration of ", n.spelling]
  | .unexpectedType fault => String.join ["unexpected type ", fault.describe]
  | .capturedVariable n => String.join ["cannot access ", n.spelling, " from a nested routine"]
  | .forwardMismatch n => String.join [n.spelling, " does not match its forward declaration"]
  | .forwardWithoutBody n => String.join ["forward declaration of ", n.spelling, " has no body"]
  | .assignedConstant n => String.join ["cannot assign to constant ", n.spelling]
  | .argumentCount n expected found =>
    String.join
      [n.spelling, " expects ", toString expected, " argument(s), found ", toString found]
  | .emptyRange low high =>
    String.join ["empty range ", toString low.toInt, "..", toString high.toInt]
  | .downwardLoop => "`downto` loops are not supported"
  | .outsideLoop keyword => quoted keyword.spelling ++ " outside of a loop"
  | .constantOverflow => "constant expression overflows"
  | .divisionByZero => "division by zero in constant expression"
  | .notConstant => "expression is not constant"
  | .operatorNotConstant op => String.join ["operator ", op.describe, " is not constant"]

/-- A result that fails with a located error in the meaning of a program. -/
abbrev Checked := Except (Located SemanticError)

end MiniPascal
