import MiniPascal.Typing.Rules

/-! Constants have 64 bits. Operands are evaluated from left to right before their operator, so the
first offence in that order is reported. -/

namespace MiniPascal

/-- A value known before the program runs. -/
inductive Constant where
  | int (value : Int64)
  | double (value : Double)
  | bool (value : Bool)
  deriving DecidableEq

namespace Constant

/-- The constant as a number; truth values count as zero and one. -/
def toDouble : Constant → Double
  | int value => Double.ofInt64 value
  | double value => value
  | bool value => if value then Double.one else Double.zero

/-- An integer, if it has at most 64 bits. -/
def ofInt? (n : Int) : Option Constant :=
  if -0x8000000000000000 ≤ n ∧ n ≤ 0x7fffffffffffffff then some (int (Int64.ofInt n)) else none

/-- An integer, or the error for one that is too large. -/
def checked (n : Int) (p : Position) : Checked Constant :=
  match ofInt? n with
  | some c => .ok c
  | none => .error ⟨p, .constantOverflow⟩

/-- The comparison of two integers. -/
def compareInt (op : BinOp) (a b : Int) : Bool :=
  match op with
  | .equal => a = b
  | .notEqual => a ≠ b
  | .less => a < b
  | .lessEqual => a ≤ b
  | .greater => b < a
  | _ => b ≤ a

/-- The comparison of two doubles. -/
def compareDouble (op : BinOp) (a b : Double) : Bool :=
  match op with
  | .equal => a.eq b
  | .notEqual => !a.eq b
  | .less => a.lt b
  | .lessEqual => a.le b
  | .greater => b.lt a
  | _ => b.le a

/-- The value of a binary operation on integers. -/
def binaryInt (op : BinOp) (a b : Int64) (p : Position) : Checked Constant :=
  match op with
  | .add => checked (a.toInt + b.toInt) p
  | .sub => checked (a.toInt - b.toInt) p
  | .mul => checked (a.toInt * b.toInt) p
  | .div => if b = 0 then .error ⟨p, .divisionByZero⟩ else checked (a.toInt.tdiv b.toInt) p
  | .mod =>
    if b = 0 then .error ⟨p, .divisionByZero⟩
    else do
      -- the remainder counts as too large where the quotient is
      let _ ← checked (a.toInt.tdiv b.toInt) p
      checked (a.toInt.tmod b.toInt) p
  | .and => .ok (int (a &&& b))
  | .or => .ok (int (a ||| b))
  | .divide =>
    if b = 0 then .error ⟨p, .divisionByZero⟩
    else .ok (double ((Double.ofInt64 a).div (Double.ofInt64 b)))
  | op => .ok (bool (compareInt op a.toInt b.toInt))

/-- The value of a binary operation on numbers, at least one of them a double. -/
def binaryDouble (op : BinOp) (a b : Double) (p : Position) : Checked Constant :=
  match op with
  | .add => .ok (double (a.add b))
  | .sub => .ok (double (a.sub b))
  | .mul => .ok (double (a.mul b))
  | .divide =>
    if b.eq Double.zero then .error ⟨p, .divisionByZero⟩ else .ok (double (a.div b))
  | .div | .mod | .and | .or => .error ⟨p, .operatorNotConstant op⟩
  | op => .ok (bool (compareDouble op a b))

/-- The value of a binary operation. -/
def binary (op : BinOp) (a b : Constant) (p : Position) : Checked Constant :=
  match op, a, b with
  | op, int a, int b => binaryInt op a b p
  | .and, bool a, bool b => .ok (bool (a && b))
  | .or, bool a, bool b => .ok (bool (a || b))
  | .equal, bool a, bool b => .ok (bool (a == b))
  | .notEqual, bool a, bool b => .ok (bool (a != b))
  | op, a, b => binaryDouble op a.toDouble b.toDouble p

/-- The value of a unary operation. -/
def unary (op : UnaryOp) (a : Constant) (p : Position) : Checked Constant :=
  match op, a with
  | .plus, a => .ok a
  | .minus, int a => checked (-a.toInt) p
  | .minus, double a => .ok (double a.neg)
  | .not, int a => .ok (int (~~~a))
  | .not, bool a => .ok (bool (!a))
  | _, _ => .error ⟨p, .notConstant⟩

end Constant

namespace Expr

/-- The value of a constant expression. -/
def fold : Expr → Checked Constant
  | int p value =>
    match signed? value with
    | some value => .ok (.int value)
    | none => .error ⟨p, .constantOverflow⟩
  | double _ value => .ok (.double value)
  | bool _ value => .ok (.bool value)
  | unary p _ op operand => do
    let a ← operand.fold
    Constant.unary op a p
  | binary p _ op left right => do
    let a ← left.fold
    let b ← right.fold
    Constant.binary op a b p
  | e => .error ⟨e.position, .notConstant⟩

/-- The literal of a constant; a negative integer is a negated literal. -/
def ofConstant (c : Constant) (p : Position) : Expr :=
  match c with
  | .int value =>
    if value < 0 then unary p .integer .minus (int p (UInt64.ofNat value.toInt.natAbs))
    else int p value.toUInt64
  | .double value => double p value
  | .bool value => bool p value

end Expr

end MiniPascal
