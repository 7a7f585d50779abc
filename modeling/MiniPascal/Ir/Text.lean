import MiniPascal.Ir.Basic

/-! Writing a program line by line. Every block ends with one jump: one is added where a label would
be run into, and what follows a jump is left out. -/

namespace MiniPascal.Ir

/-- Texts with commas between them. -/
def commas (texts : List String) : String := ", ".intercalate texts

mutual

/-- The form of a type. -/
def Ty.describe : Ty → String
  | .void => "void"
  | .i1 => "i1"
  | .i32 => "i32"
  | .double => "double"
  | .ptr => "ptr"
  | .array length element => "[" ++ toString length.toNat ++ " x " ++ element.describe ++ "]"
  | .struct fields => "\x7b " ++ commas (describeAll fields) ++ " \x7d"

/-- The forms of some types. -/
def describeAll : List Ty → List String
  | [] => []
  | t :: ts => t.describe :: describeAll ts

end

/-- Digits of base sixteen in upper case. -/
def hexDigits (n : Nat) : List Char := (Nat.toDigits 16 n).map Char.toUpper

/-- A number in base sixteen, filled up with zeros to a width. -/
def hex (width n : Nat) : String :=
  let ds := hexDigits n
  String.ofList (List.replicate (width - ds.length) '0' ++ ds)

/-- The form of an operand. -/
def Operand.describe : Operand → String
  | .local name => "%" ++ name
  | .global name => "@" ++ name
  | .int value => toString value.toInt
  | .double value => "0x" ++ hex 16 value.bits.toNat
  | .widened value => toString value.toNat ++ ".0"
  | .bool value => if value then "true" else "false"

/-- The form of an opcode. -/
def Opcode.describe : Opcode → String
  | .add => "add" | .sub => "sub" | .mul => "mul" | .sdiv => "sdiv" | .srem => "srem"
  | .fadd => "fadd" | .fsub => "fsub" | .fmul => "fmul" | .fdiv => "fdiv"
  | .and => "and" | .or => "or" | .xor => "xor"

/-- The form of a predicate. -/
def Predicate.describe : Predicate → String
  | .eq => "eq" | .ne => "ne" | .slt => "slt" | .sle => "sle" | .sgt => "sgt" | .sge => "sge"
  | .oeq => "oeq" | .one => "one" | .olt => "olt" | .ole => "ole" | .ogt => "ogt" | .oge => "oge"

/-- The form of a conversion. -/
def Cast.describe : Cast → String
  | .sitofp => "sitofp"
  | .zext => "zext"

/-- The form of a label. -/
def describeLabel (l : Label) : String := "L" ++ toString l

/-- The form of an operand and its type. -/
def describeTyped (arg : Ty × Operand) : String := arg.1.describe ++ " " ++ arg.2.describe

/-- The form of a jump. -/
def describeJump (l : Label) : String := String.join ["  br label %", describeLabel l]

/-- The form of the type of a callee. -/
def describeCallee (returns : Ty) : Option (List Ty) → String
  | some fixed => returns.describe ++ " (" ++ commas (describeAll fixed) ++ ", ...)"
  | none => returns.describe

/-- The line of an instruction; a transition without a target has none. -/
def Instr.line? : Instr → Option String
  | .alloca slot t => some ("  %" ++ slot ++ " = alloca " ++ t.describe)
  | .load output t slot =>
    some ("  %" ++ output ++ " = load " ++ t.describe ++ ", ptr " ++ slot.describe)
  | .store t value slot =>
    some ("  store " ++ describeTyped (t, value) ++ ", ptr " ++ slot.describe)
  | .binary output op t lhs rhs =>
    some ("  %" ++ output ++ " = " ++ op.describe ++ " " ++ describeTyped (t, lhs) ++ ", "
      ++ rhs.describe)
  | .compare output predicate t lhs rhs =>
    some ("  %" ++ output ++ " = " ++ (if predicate.isFloat then "fcmp " else "icmp ")
      ++ predicate.describe ++ " " ++ describeTyped (t, lhs) ++ ", " ++ rhs.describe)
  | .negate output value => some ("  %" ++ output ++ " = fneg double " ++ value.describe)
  | .cast output op source value target =>
    some ("  %" ++ output ++ " = " ++ op.describe ++ " " ++ describeTyped (source, value) ++ " to "
      ++ target.describe)
  | .element output aggregate base indices =>
    some ("  %" ++ output ++ " = getelementptr inbounds " ++ aggregate.describe ++ ", ptr "
      ++ base.describe ++ ", " ++ commas (indices.map fun i => "i32 " ++ i.describe))
  | .call output returns target variadic arguments =>
    some ("  " ++ (output.elim "" fun o => "%" ++ o ++ " = ") ++ "call "
      ++ describeCallee returns variadic ++ " @" ++ target
      ++ "(" ++ commas (arguments.map describeTyped) ++ ")")
  | .label l => some (describeLabel l ++ ":")
  | .jump target => some (describeJump target)
  | .jumpIf condition yes no =>
    some ("  br i1 " ++ condition.describe ++ ", label %" ++ describeLabel yes ++ ", label %"
      ++ describeLabel no)
  | .transition _ (some target) => some (describeJump target)
  | .transition _ none => none
  | .ret (some value) => some ("  ret " ++ describeTyped value)
  | .ret none => some "  ret void"

/-- A transition without a target that had to be written. -/
structure Unresolved where
  kind : Transition
  function : String
  deriving DecidableEq, Repr

/-- The text of the failure. -/
def Unresolved.message (u : Unresolved) : String :=
  let kind := match u.kind with
    | .breakLoop => "Break"
    | .continueLoop => "Continue"
  String.join ["unresolved ", kind, " in `", u.function, "`"]

/-- What has been written, in lines, and what stopped the writing if anything did. -/
structure Emission where
  lines : List String
  failure : Option Unresolved

namespace Emission

/-- Lines that could all be written. -/
def ofLines (lines : List String) : Emission := ⟨lines, none⟩

/-- One emission behind another that has not been stopped. -/
def append (e : Emission) (next : Emission) : Emission :=
  match e.failure with
  | some _ => e
  | none => ⟨e.lines ++ next.lines, next.failure⟩

instance : Append Emission := ⟨append⟩

/-- All the lines as a text; each ends with a line feed. -/
def text (e : Emission) : String := String.join (e.lines.map (· ++ "\n"))

end Emission

/-- The lines of the instructions of a function. The flag tells whether the block is complete. -/
def emitBody (function : String) : Bool → List Instr → Emission
  | _, [] => .ofLines []
  | terminated, i :: code =>
    match i with
    | .label l =>
      let enter := if terminated then [] else [describeJump l]
      .ofLines (enter ++ [describeLabel l ++ ":"]) ++ emitBody function false code
    | .transition kind none =>
      if terminated then emitBody function true code else ⟨[], some ⟨kind, function⟩⟩
    | i =>
      if terminated then emitBody function true code
      else .ofLines i.line?.toList ++ emitBody function i.isTerminator code

/-- The lines of a function. -/
def Function.emit (f : Function) : Emission :=
  let parameters := f.parameters.map fun (name, t) => t.describe ++ " %" ++ name
  .ofLines ["", "define " ++ f.returns.describe ++ " @" ++ f.name ++ "(" ++ commas parameters
      ++ ") \x7b", "entry:"]
    ++ emitBody f.name false f.body ++ .ofLines ["\x7d"]

/-- A byte of a constant text: printing characters of ASCII stand for themselves, except the quote
and the backslash, and all else is written in base sixteen. -/
def escapeByte (b : UInt8) : List Char :=
  if 0x20 ≤ b && b ≤ 0x7e && b != 0x22 && b != 0x5c then [Char.ofNat b.toNat]
  else '\\' :: (hex 2 b.toNat).toList

/-- The form of the bytes of a constant text. -/
def escape (bytes : List UInt8) : String := String.ofList (bytes.flatMap escapeByte)

/-- The line of an external function. -/
def External.line (e : External) : String :=
  String.join
    ["declare ", e.returns.describe, " @", e.name, "(", commas (describeAll e.parameters),
     if e.variadic then ", ...)" else ")"]

/-- The line of a global. -/
def Global.line : Global → String
  | .variable name t => String.join ["@", name, " = global ", t.describe, " zeroinitializer"]
  | .text name bytes =>
    String.join
      ["@", name, " = private unnamed_addr constant [", toString bytes.length, " x i8] c\"",
       escape bytes, "\""]

/-- The lines of some functions. -/
def emitFunctions : List Function → Emission
  | [] => .ofLines []
  | f :: fs => f.emit ++ emitFunctions fs

/-- The lines of a program. -/
def Program.emit (p : Program) : Emission :=
  let externals := p.externals.map External.line
  .ofLines (externals ++ (if externals.isEmpty then [] else [""]) ++ p.globals.map Global.line)
    ++ emitFunctions p.functions

end MiniPascal.Ir
