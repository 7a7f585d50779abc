import Mathlib.Logic.Function.Basic
import MiniPascal.Proofs.Ir.Flow
import MiniPascal.Source.Utf8

/-! A machine that runs the intermediate representation. Integers are kept in 64 bits and wrapped to
32 after every operation. -/

namespace MiniPascal

/-- The arithmetic of doubles, which is left open. -/
structure Floats where
  add : Double → Double → Double
  sub : Double → Double → Double
  mul : Double → Double → Double
  div : Double → Double → Double
  negate : Double → Double
  /-- Nothing for two that are not ordered. -/
  compare : Double → Double → Option Ordering
  ofInt : Int → Double
  /-- The digits that are printed. -/
  format : Double → String

namespace Ir

/-- A piece of memory: a global, or a slot of one call of a function. -/
inductive Root where
  | global (name : String)
  | slot (frame : Nat) (name : String)
  deriving DecidableEq

/-- The address of a part of a piece of memory. -/
structure Pointer where
  root : Root
  path : List UInt64

inductive Value where
  | int (n : Int64)
  | double (x : Double)
  | bool (b : Bool)
  | ptr (p : Pointer)
  | aggregate (vs : List Value)

mutual

/-- What memory of a type holds at first. -/
def Ty.zero : Ty → Option Value
  | .i1 => some (.bool false)
  | .i32 => some (.int 0)
  | .double => some (.double ⟨0⟩)
  | .array n t => t.zero.map fun v => .aggregate (List.replicate n.toNat v)
  | .struct ts => (Ty.zeros ts).map .aggregate
  | .void | .ptr => none

/-- What memory of some types holds at first. -/
def Ty.zeros : List Ty → Option (List Value)
  | [] => some []
  | t :: ts => do return (← t.zero) :: (← Ty.zeros ts)

end

namespace Value

/-- The part of a value that a path leads to. -/
def part : Value → List UInt64 → Option Value
  | v, [] => some v
  | .aggregate vs, i :: path => do (← vs[i.toNat]?).part path
  | _, _ :: _ => none

/-- The value with another part at the end of a path. -/
def replace : Value → List UInt64 → Value → Option Value
  | _, [], w => some w
  | .aggregate vs, i :: path, w => do
    let v ← (← vs[i.toNat]?).replace path w
    return .aggregate (vs.set i.toNat v)
  | _, _ :: _, _ => none

/-- An integer of 32 bits. -/
def wrap (n : Int64) : Value := .int n.toInt32.toInt64

/-- The order of two values of one kind. -/
def compare (F : Floats) : Value → Value → Option Ordering
  | .int a, .int b => some (Ord.compare a.toInt b.toInt)
  | .double x, .double y => F.compare x y
  | .bool a, .bool b => some (Ord.compare a b)
  | _, _ => none

end Value

/-- What an operation makes of two values. -/
def Opcode.apply (F : Floats) : Opcode → Value → Value → Option Value
  | .add, .int a, .int b => some (.wrap (a + b))
  | .sub, .int a, .int b => some (.wrap (a - b))
  | .mul, .int a, .int b => some (.wrap (a * b))
  | .sdiv, .int a, .int b =>
    if b = 0 ∨ a = .minValue ∧ b = -1 then none else some (.wrap (a / b))
  | .srem, .int a, .int b =>
    if b = 0 ∨ a = .minValue ∧ b = -1 then none else some (.wrap (a % b))
  | .and, .int a, .int b => some (.wrap (a &&& b))
  | .or, .int a, .int b => some (.wrap (a ||| b))
  | .xor, .int a, .int b => some (.wrap (a ^^^ b))
  | .fadd, .double x, .double y => some (.double (F.add x y))
  | .fsub, .double x, .double y => some (.double (F.sub x y))
  | .fmul, .double x, .double y => some (.double (F.mul x y))
  | .fdiv, .double x, .double y => some (.double (F.div x y))
  | .and, .bool a, .bool b => some (.bool (a && b))
  | .or, .bool a, .bool b => some (.bool (a || b))
  | .xor, .bool a, .bool b => some (.bool (a ^^ b))
  | _, _, _ => none

/-- Whether a predicate holds for two values of this order. -/
def Predicate.holds : Predicate → Ordering → Bool
  | .eq, o | .oeq, o => o.isEq
  | .ne, o | .one, o => o.isNe
  | .slt, o | .olt, o => o.isLT
  | .sle, o | .ole, o => o.isLE
  | .sgt, o | .ogt, o => o.isGT
  | .sge, o | .oge, o => o.isGE

/-- What a conversion makes of a value. -/
def Cast.apply (F : Floats) : Cast → Value → Option Value
  | .sitofp, .int n => some (.double (F.ofInt n.toInt))
  | .zext, .bool b => some (.int (if b then 1 else 0))
  | _, _ => none

/-- The bytes of a constant text; a later global of the same name counts. -/
def Program.text? (p : Program) (name : String) : Option (List UInt8) :=
  p.globals.reverse.findSome? fun
    | .text x bytes => if x = name then some bytes else none
    | .variable .. => none

/-- A function; a later one of the same name counts. -/
def Program.function? (p : Program) (name : String) : Option Function :=
  p.functions.reverse.find? fun f => f.name = name

/-- The text that a pointer to a constant stands for: all its bytes but the end mark. -/
def Program.decode (p : Program) : Value → Option String
  | .ptr ⟨.global name, _⟩ => do
    let bytes ← p.text? name
    if bytes = [] then none else some (Utf8.text bytes.dropLast)
  | _ => none

/-- What `printf` makes of a format and the values for it. -/
def Program.print (F : Floats) (p : Program) : List Char → List Value → Option String
  | [], _ => some ""
  | '%' :: 'd' :: cs, .int n :: vs => do return toString n.toInt ++ (← p.print F cs vs)
  | '%' :: 'f' :: cs, .double x :: vs => do return F.format x ++ (← p.print F cs vs)
  | '%' :: 's' :: cs, v :: vs => do return (← p.decode v) ++ (← p.print F cs vs)
  | '%' :: _, _ => none
  | ch :: cs, vs => do return String.singleton ch ++ (← p.print F cs vs)

/-- What the instructions of a function read and write. -/
structure Config where
  locals : String → Option Value
  memory : Root → Option Value
  output : String

namespace Config

variable (F : Floats) (C : Config)

/-- What an operand stands for. -/
def value : Operand → Option Value
  | .local x => C.locals x
  | .global x => some (.ptr ⟨.global x, []⟩)
  | .int n => some (.int n)
  | .double x => some (.double x)
  | .widened n => some (.double (F.ofInt n.toNat))
  | .bool b => some (.bool b)

/-- The address that an operand stands for. -/
def pointer (v : Operand) : Option Pointer :=
  match C.value F v with
  | some (.ptr p) => some p
  | _ => none

/-- The indices that some operands stand for. -/
def offsets : List Operand → Option (List UInt64)
  | [] => some []
  | v :: vs =>
    match C.value F v with
    | some (.int n) => (offsets vs).map (n.toUInt64 :: ·)
    | _ => none

/-- What lies at an address. -/
def read (p : Pointer) : Option Value := do (← C.memory p.root).part p.path

/-- Puts a value at an address. -/
def write (p : Pointer) (v : Value) : Option Config := do
  let whole ← (← C.memory p.root).replace p.path v
  return { C with memory := Function.update C.memory p.root (some whole) }

/-- Gives a name a value. -/
def define (x : String) (v : Value) : Config :=
  { C with locals := Function.update C.locals x (some v) }

end Config

/-- The effect of an instruction behind which the next one follows, in the call of a function with
the given number. A call is one of `printf` here. -/
def Instr.exec (F : Floats) (p : Program) (frame : Nat) (C : Config) : Instr → Option Config
  | .alloca x t => do
    let v ← t.zero
    let root := Root.slot frame x
    return { C.define x (.ptr ⟨root, []⟩) with memory := Function.update C.memory root (some v) }
  | .load x _ slot => do return C.define x (← C.read (← C.pointer F slot))
  | .store _ v slot => do C.write (← C.pointer F slot) (← C.value F v)
  | .binary x op _ lhs rhs => do
    return C.define x (← op.apply F (← C.value F lhs) (← C.value F rhs))
  | .compare x predicate _ lhs rhs => do
    let order ← (← C.value F lhs).compare F (← C.value F rhs)
    return C.define x (.bool (predicate.holds order))
  | .negate x v =>
    match C.value F v with
    | some (.double y) => some (C.define x (.double (F.negate y)))
    | _ => none
  | .cast x op _ v _ => do return C.define x (← op.apply F (← C.value F v))
  | .element x _ base (_ :: indices) => do
    let address ← C.pointer F base
    return C.define x (.ptr { address with path := address.path ++ (← C.offsets F indices) })
  | .call x _ _ _ arguments =>
    match arguments.mapM fun a => C.value F a.2 with
    | some (format :: vs) => do
      let text ← p.print F (← p.decode format).toList vs
      let C := { C with output := C.output ++ text }
      return x.elim C (C.define · (.int 0))
    | _ => none
  | .label _ => some C
  | _ => none

/-- A call of a function that has not returned. -/
structure Frame where
  number : Nat
  body : List Instr
  /-- The instructions to be run next. -/
  rest : List Instr
  locals : String → Option Value
  /-- Where the caller wants the result. -/
  output : Option String

/-- A state of the machine; the innermost call comes first. -/
structure State where
  frames : List Frame
  memory : Root → Option Value
  calls : Nat
  output : String

/-- The instructions from a label on; the last place where the label is set counts. -/
def fromLabel (l : Label) : List Instr → Option (List Instr)
  | [] => none
  | i :: code => (fromLabel l code).or (if i.sets = some l then some (i :: code) else none)

namespace State

/-- Calls a function. -/
def enter (p : Program) (s : State) (target : String) (arguments : List Value)
    (output : Option String) : Option State := do
  let f ← p.function? target
  let bound := ((f.parameters.map Prod.fst).zip arguments).reverse
  let locals x := (bound.find? fun a => a.1 = x).map Prod.snd
  let frame : Frame := ⟨s.calls + 1, f.body, f.body, locals, output⟩
  return { s with frames := frame :: s.frames, calls := s.calls + 1 }

/-- Leaves the innermost call with a result. -/
def leave (s : State) (f : Frame) (callers : List Frame) (result : Option Value) : State :=
  match callers, f.output, result with
  | caller :: callers, some x, some v =>
    let caller := { caller with locals := Function.update caller.locals x (some v) }
    { s with frames := caller :: callers }
  | callers, _, _ => { s with frames := callers }

/-- Runs one instruction. -/
def step (F : Floats) (p : Program) (s : State) : Option State :=
  match s.frames with
  | f :: callers =>
    let C : Config := ⟨f.locals, s.memory, s.output⟩
    let goto (l : Label) : Option State := do
      return { s with frames := { f with rest := ← fromLabel l f.body } :: callers }
    let plain (i : Instr) (rest : List Instr) : Option State := do
      let C ← i.exec F p f.number C
      return { s with
        frames := { f with rest, locals := C.locals } :: callers
        memory := C.memory
        output := C.output }
    match f.rest with
    | [] => none
    | .jump l :: _ | .transition _ (some l) :: _ => goto l
    | .jumpIf v yes no :: _ =>
      match C.value F v with
      | some (.bool b) => goto (if b then yes else no)
      | _ => none
    | .ret none :: _ => some (s.leave f callers none)
    | .ret (some (_, v)) :: _ => do return s.leave f callers (some (← C.value F v))
    | .call x t target fixed arguments :: rest =>
      if target = "printf" then plain (.call x t target fixed arguments) rest
      else do
        let vs ← arguments.mapM fun a => C.value F a.2
        enter p { s with frames := { f with rest } :: callers } target vs x
    | i :: rest => plain i rest
  | [] => none

/-- From the state on, the machine ends after so many steps and has printed the text. -/
inductive Halts (F : Floats) (p : Program) : Nat → State → String → Prop
  | done {s : State} (h : s.frames = []) : Halts F p 0 s s.output
  | step {n : Nat} {s s' : State} {o : String} (h : s.step F p = some s') (h' : Halts F p n s' o) :
    Halts F p (n + 1) s o

end State

namespace Program

/-- The memory of the variables of a program. -/
def memory : List Global → (Root → Option Value) → Option (Root → Option Value)
  | [], m => some m
  | .text .. :: globals, m => memory globals m
  | .variable x t :: globals, m => do
    memory globals (Function.update m (.global x) (some (← t.zero)))

/-- The state in which `main` has been called. -/
def start (p : Program) : Option State := do
  let m ← memory p.globals fun _ => none
  State.enter p ⟨[], m, 0, ""⟩ "main" [] none

/-- The machine runs the program to its end and prints the text. -/
def Prints (F : Floats) (p : Program) (o : String) : Prop :=
  ∃ s n, p.start = some s ∧ s.Halts F p n o

end Program

end Ir

end MiniPascal
