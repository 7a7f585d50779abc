import MiniPascal.Ir.Patch
import MiniPascal.Syntax.Declaration

/-! The state of a lowering. Labels are numbered over the whole program, temporaries are named after
positions, and equal texts are stored once. -/

namespace MiniPascal.Lowering

/-- Numbers to count with. -/
class Counter (κ : Type) where
  zero : κ
  next : κ → κ
  /-- There is no next one: counting on starts again from zero. -/
  isLast : κ → Bool
  toNat : κ → Nat

instance : Counter Nat := ⟨0, (· + 1), fun _ => false, id⟩

@[simp] theorem Counter.zero_nat : (Counter.zero : Nat) = 0 := rfl

@[simp] theorem Counter.next_nat (n : Nat) : Counter.next n = n + 1 := rfl

instance : Counter UInt32 := ⟨0, (· + 1), (· = UInt32.ofNat (UInt32.size - 1)), UInt32.toNat⟩

/-- What has been generated so far. The counts are those of the theory unless others are given, such
as those of the machine. -/
structure Generator (κ : Type := Nat) where
  /-- The number of the next label. -/
  labels : κ
  /-- How often each name has been asked for in the current function. -/
  names : List (String × κ)
  /-- The formats of `printf`, in order of their numbers. -/
  formats : List String
  /-- The texts of the program, in order of their numbers. -/
  texts : List String
  globals : List Ir.Global
  functions : List Ir.Function
  /-- The slots of the current function. -/
  allocas : List Ir.Instr
  /-- The instructions of the current function behind its slots. -/
  code : List Ir.Instr
  usesPrintf : Bool
  /-- A count has gone past the last number. A build that checks for it stops there. -/
  overflowed : Bool

/-- A step of a lowering that counts with some numbers. -/
abbrev StepOf (κ : Type) := StateM (Generator κ)

/-- A step of a lowering. -/
abbrev Step := StepOf Nat

variable {κ : Type}

/-- Nothing generated. -/
def Generator.empty [Counter κ] : Generator κ :=
  ⟨Counter.zero, [], [], [], [], [], [], [], false, false⟩

/-- Appends an instruction. -/
def push (i : Ir.Instr) : StepOf κ Unit := modify fun g => { g with code := g.code ++ [i] }

/-- Reserves a slot in the current function. -/
def alloca (slot : String) (t : Ir.Ty) : StepOf κ Unit :=
  modify fun g => { g with allocas := g.allocas ++ [.alloca slot t] }

/-- The next label. -/
def newLabel [Counter κ] : StepOf κ Ir.Label :=
  modifyGet fun g => (Counter.toNat g.labels, { g with
    labels := Counter.next g.labels
    overflowed := Counter.isLast g.labels || g.overflowed })

/-- How often a name has been counted. -/
def countOf [Counter κ] (name : String) : List (String × κ) → κ
  | [] => Counter.zero
  | (n, count) :: names => if n = name then count else countOf name names

/-- Counts a name once more. -/
def countUp [Counter κ] (name : String) : List (String × κ) → List (String × κ)
  | [] => [(name, Counter.next Counter.zero)]
  | (n, count) :: names =>
    if n = name then (n, Counter.next count) :: names else (n, count) :: countUp name names

/-- The name of a value that belongs to a position. -/
def baseName (p : Position) (suffix : String) : String :=
  "s" ++ toString p.line ++ "-" ++ toString p.column ++ suffix

/-- The name for the use of a base name that follows `count` others. -/
def numbered (base : String) (count : Nat) : String :=
  if count = 0 then base else base ++ "." ++ toString count

/-- A name that the current function has not used yet. -/
def newName [Counter κ] (p : Position) (suffix : String) : StepOf κ String :=
  modifyGet fun g =>
    let base := baseName p suffix
    let count := countOf base g.names
    (numbered base (Counter.toNat count), { g with
      names := countUp base g.names
      overflowed := Counter.isLast count || g.overflowed })

/-- The bytes of a text and its end mark. -/
def textBytes (s : String) : List UInt8 := s.toUTF8.toList ++ [0]

/-- The global that holds a text of the program. -/
def textGlobal (s : String) : StepOf κ String :=
  modifyGet fun g =>
    let name := ".str." ++ toString (g.texts.idxOf s)
    if s ∈ g.texts then (name, g)
    else
      let globals := g.globals ++ [.text name (textBytes s)]
      (name, { g with texts := g.texts ++ [s], globals })

/-- The global that holds a format. -/
def formatGlobal (s : String) : StepOf κ String :=
  modifyGet fun g =>
    let name := ".fmt." ++ toString (g.formats.idxOf s)
    if s ∈ g.formats then (name, g)
    else
      let globals := g.globals ++ [.text name (textBytes s)]
      (name, { g with formats := g.formats ++ [s], globals })

/-- The index of the next instruction. -/
def here : StepOf κ Nat := do return (← get).code.length

/-- Completes a loop whose body starts at an index: its transitions get their targets, and dead code
behind the index goes. -/
def closeLoop (start : Nat) (exit next : Ir.Label) : StepOf κ Unit :=
  modify fun g =>
    let patched := g.code.take start ++ (Ir.resolveTransitions exit next (g.code.drop start)).1
    { g with code := (Ir.eliminateDeadCode patched start).1 }

/-- Starts a function. -/
def beginFunction : StepOf κ Unit :=
  modify fun g => { g with names := [], allocas := [], code := [] }

/-- Ends the current function, whose slots come before all other instructions. -/
def endFunction (name : String) (returns : Ir.Ty) (parameters : List (String × Ir.Ty)) :
    StepOf κ Unit :=
  modify fun g =>
    { g with
      functions := g.functions ++ [⟨name, returns, parameters, g.allocas ++ g.code⟩]
      allocas := []
      code := [] }

mutual

/-- The machine type of a type. -/
def machineType : Ty → Ir.Ty
  | .scalar .integer => .i32
  | .scalar .double => .double
  | .scalar .boolean => .i1
  | .array low high element =>
    .array (((Ty.array low high element).length?).getD 0) (machineType element)
  | .record fields => .struct (machineTypes fields)

/-- The machine types of some fields. -/
def machineTypes : List (Name × Ty) → List Ir.Ty
  | [] => []
  | (_, t) :: fields => machineType t :: machineTypes fields

end

/-- The global of a variable of the main program. -/
def globalName (n : Name) : String := "global_" ++ n.canonical

/-- The slot of a parameter or variable of a routine. -/
def slotName (n : Name) : String := n.canonical ++ ".addr"

/-- The argument that a parameter is passed as. -/
def argumentName (n : Name) : String := n.canonical ++ ".arg"

/-- The function of a routine. -/
def functionName (symbol : String) : String := "user_" ++ symbol

end MiniPascal.Lowering
