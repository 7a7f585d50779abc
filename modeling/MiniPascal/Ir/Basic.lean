import MiniPascal.Double.Basic
import MiniPascal.Syntax.Stmt

/-! The intermediate representation. A `transition` stands for `break` or `continue` and has no
target until the loop around it is complete. -/

namespace MiniPascal.Ir

/-- A type of machine values. -/
inductive Ty where
  | void | i1 | i32 | double | ptr
  | array (length : UInt64) (element : Ty)
  | struct (fields : List Ty)

/-- The number of a label. -/
abbrev Label := Nat

/-- What an instruction works on. -/
inductive Operand where
  /-- A value or an address of the function, by name. -/
  | local (name : String)
  /-- The address of a global, by name. -/
  | global (name : String)
  | int (value : Int64)
  | double (value : Double)
  /-- An integer literal where a double is needed. -/
  | widened (value : UInt64)
  | bool (value : Bool)
  deriving DecidableEq, Repr

/-- Operations on two values of one type. -/
inductive Opcode where
  | add | sub | mul | sdiv | srem | fadd | fsub | fmul | fdiv | and | or | xor
  deriving DecidableEq, Repr

/-- Comparisons: of integers, signed or not, and of doubles that are numbers. -/
inductive Predicate where
  | eq | ne | slt | sle | sgt | sge | oeq | one | olt | ole | ogt | oge
  deriving DecidableEq, Repr

/-- Whether the predicate compares doubles. -/
def Predicate.isFloat : Predicate → Bool
  | .oeq | .one | .olt | .ole | .ogt | .oge => true
  | _ => false

/-- Conversions. -/
inductive Cast where
  /-- A signed integer to a double. -/
  | sitofp
  /-- A truth value to an integer. -/
  | zext
  deriving DecidableEq, Repr

/-- An instruction. -/
inductive Instr where
  | alloca (slot : String) (type : Ty)
  | load (output : String) (type : Ty) (slot : Operand)
  | store (type : Ty) (value slot : Operand)
  | binary (output : String) (op : Opcode) (type : Ty) (lhs rhs : Operand)
  | compare (output : String) (predicate : Predicate) (type : Ty) (lhs rhs : Operand)
  | negate (output : String) (value : Operand)
  | cast (output : String) (op : Cast) (source : Ty) (value : Operand) (target : Ty)
  /-- The address of a part of an aggregate. -/
  | element (output : String) (aggregate : Ty) (base : Operand) (indices : List Operand)
  /-- A call; the fixed parameters of a callee with a variable number of them are given. -/
  | call (output : Option String) (returns : Ty) (target : String) (variadic : Option (List Ty))
      (arguments : List (Ty × Operand))
  | label (l : Label)
  | jump (target : Label)
  | jumpIf (condition : Operand) (yes no : Label)
  | transition (kind : Transition) (target : Option Label)
  | ret (value : Option (Ty × Operand))

/-- Whether nothing behind the instruction is reached until the next label. -/
def Instr.isTerminator : Instr → Bool
  | .jump _ | .jumpIf .. | .transition .. | .ret _ => true
  | _ => false

/-- A function that is defined elsewhere. -/
structure External where
  name : String
  returns : Ty
  parameters : List Ty
  variadic : Bool

/-- A named piece of memory. -/
inductive Global where
  /-- A variable, at first filled with zeros. -/
  | variable (name : String) (type : Ty)
  /-- A constant text with its end mark. -/
  | text (name : String) (bytes : List UInt8)

/-- The name of a global. -/
def Global.name : Global → String
  | .variable name _ | .text name _ => name

/-- A function. -/
structure Function where
  name : String
  returns : Ty
  parameters : List (String × Ty)
  body : List Instr

/-- A program. -/
structure Program where
  externals : List External
  globals : List Global
  functions : List Function

end MiniPascal.Ir
