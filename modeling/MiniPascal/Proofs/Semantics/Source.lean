import Mathlib.Algebra.Group.Int.Defs
import Mathlib.Algebra.Group.Nat.Defs
import MiniPascal.Proofs.Machine.Basic
import MiniPascal.Scope.Basic

/-! The meaning of programs without calls of routines. A statement that meets an error at run time
leads nowhere. -/

namespace MiniPascal

/-- A value. Arrays and records hold their parts in order. -/
inductive Val where
  | int (n : Int32)
  | double (x : Double)
  | bool (b : Bool)
  | parts (vs : List Val)

namespace Val

/-- The part of a value that a path leads to. -/
def part : Val → List UInt64 → Option Val
  | v, [] => some v
  | .parts vs, i :: path => do (← vs[i.toNat]?).part path
  | _, _ :: _ => none

/-- The value with another part at the end of a path. -/
def replace : Val → List UInt64 → Val → Option Val
  | _, [], w => some w
  | .parts vs, i :: path, w => do
    let v ← (← vs[i.toNat]?).replace path w
    return .parts (vs.set i.toNat v)
  | _, _ :: _, _ => none

/-- The value as an integer. -/
def int? : Val → Option Int32
  | .int n => some n
  | _ => none

/-- The value as a truth value. -/
def bool? : Val → Option Bool
  | .bool b => some b
  | _ => none

/-- The value as it is stored in a place of a type: integers become doubles in places for
doubles. -/
def convert (F : Floats) (t : Ty) : Val → Val
  | .int n => if t.scalar? = some .double then .double (F.ofInt n.toInt) else .int n
  | v => v

/-- The value as it is printed. -/
def display (F : Floats) : Val → Option String
  | .int n => some (toString n.toInt)
  | .double x => some (F.format x)
  | .bool b => some (if b then "1" else "0")
  | .parts _ => none

end Val

/-- What a comparison demands of the order of its operands. -/
def BinOp.demand? : BinOp → Option (Ordering → Bool)
  | .equal => some Ordering.isEq
  | .notEqual => some Ordering.isNe
  | .less => some Ordering.isLT
  | .lessEqual => some Ordering.isLE
  | .greater => some Ordering.isGT
  | .greaterEqual => some Ordering.isGE
  | _ => none

/-- What an operator makes of two integers. -/
def BinOp.onInts : BinOp → Int32 → Int32 → Option Val
  | .add, m, n => some (.int (m + n))
  | .sub, m, n => some (.int (m - n))
  | .mul, m, n => some (.int (m * n))
  | .div, m, n => if n = 0 then none else some (.int (m / n))
  | .mod, m, n => if n = 0 then none else some (.int (m % n))
  | .and, m, n => some (.int (m &&& n))
  | .or, m, n => some (.int (m ||| n))
  | op, m, n => do return .bool ((← op.demand?) (compare m.toInt n.toInt))

/-- What an operator makes of two doubles. -/
def BinOp.onDoubles (F : Floats) : BinOp → Double → Double → Option Val
  | .add, x, y => some (.double (F.add x y))
  | .sub, x, y => some (.double (F.sub x y))
  | .mul, x, y => some (.double (F.mul x y))
  | .divide, x, y => some (.double (F.div x y))
  | op, x, y => do return .bool ((← op.demand?) (← F.compare x y))

/-- What an operator makes of two truth values. -/
def BinOp.onBools : BinOp → Bool → Bool → Option Val
  | .and, a, b => some (.bool (a && b))
  | .or, a, b => some (.bool (a || b))
  | op, a, b => do return .bool ((← op.demand?) (compare a b))

/-- What an operator makes of two values. Where one is a double, both are, and `/` divides
doubles. -/
def BinOp.apply (F : Floats) (op : BinOp) : Val → Val → Option Val
  | .int m, .int n =>
    if op = .divide then op.onDoubles F (F.ofInt m.toInt) (F.ofInt n.toInt) else op.onInts m n
  | .int m, .double y => op.onDoubles F (F.ofInt m.toInt) y
  | .double x, .int n => op.onDoubles F x (F.ofInt n.toInt)
  | .double x, .double y => op.onDoubles F x y
  | .bool a, .bool b => op.onBools a b
  | _, _ => none

/-- What an operator makes of one value. -/
def UnaryOp.apply (F : Floats) : UnaryOp → Val → Option Val
  | .plus, .int n => some (.int n)
  | .plus, .double x => some (.double x)
  | .minus, .int n => some (.int (-n))
  | .minus, .double x => some (.double (F.negate x))
  | .not, .int n => some (.int (~~~n))
  | .not, .bool b => some (.bool !b)
  | _, _ => none

/-! ### Expressions -/

/-- The values of variables, by the canonical forms of their names. -/
abbrev Store := String → Option Val

/-- A variable or a part of one. -/
structure Place where
  name : String
  path : List UInt64

namespace Place

/-- A part of what lies at a place. -/
def inner (q : Place) (i : UInt64) : Place := { q with path := q.path ++ [i] }

/-- The place of an element of an array, whose index must be in bounds. -/
def element (array : Ty) (q : Place) (i : Int32) : Option Place := do
  let (low, high) ← array.bounds
  if low ≤ i.toInt64 ∧ i.toInt64 ≤ high then return q.inner (i.toInt64 - low).toUInt64 else none

/-- The place of a field of a record. -/
def field (q : Place) (slot : Nat) : Place := q.inner (UInt64.ofNat slot)

end Place

namespace Store

/-- What a place holds. -/
def read (S : Store) (q : Place) : Option Val := do (← S q.name).part q.path

/-- Puts a value into a place. -/
def write (S : Store) (q : Place) (v : Val) : Option Store := do
  let whole ← (← S q.name).replace q.path v
  return Function.update S q.name (some whole)

end Store

namespace Expr

variable (F : Floats) (S : Store)

mutual

/-- The place that a designator names. -/
def place : Expr → Option Place
  | .var _ _ n _ => some ⟨n.canonical, []⟩
  | .index _ _ a i => do Place.element a.type (← a.place) (← (← i.eval).int?)
  | .field _ _ r _ slot => do return (← r.place).field slot
  | _ => none

/-- The value of an expression. -/
def eval : Expr → Option Val
  | .int _ v => some (.int (Int32.ofNat v.toNat))
  | .double _ x => some (.double x)
  | .bool _ b => some (.bool b)
  | .var _ _ n _ => S.read ⟨n.canonical, []⟩
  | .unary _ _ op e => do op.apply F (← e.eval)
  | .binary _ _ op l r => do op.apply F (← l.eval) (← r.eval)
  | .call .. => none
  | .index _ _ a i => do S.read (← Place.element a.type (← a.place) (← (← i.eval).int?))
  | .field _ _ r _ slot => do S.read ((← r.place).field slot)

end

end Expr

/-! ### Statements -/

/-- What a running program has stored and printed. -/
structure World where
  store : Store
  output : String

namespace World

variable (F : Floats) (w : World)

/-- Stores a value in the place of a designator. -/
def assign (target : Expr) (v : Val) : Option World := do
  let S ← w.store.write (← target.place F w.store) v
  return { w with store := S }

/-- What is printed for an argument. -/
def shown : WriteArg → Option String
  | .text s => some s
  | .value e => do (← e.eval F w.store).display F

/-- What is printed for some arguments. -/
def shownAll : List WriteArg → Option String
  | [] => some ""
  | a :: args => do return (← w.shown F a) ++ (← shownAll args)

/-- The test of a condition. -/
def test (condition : Expr) : Option (Bool × World) := do
  return (← (← condition.eval F w.store).bool?, w)

/-- Gives a counter its first value less one. -/
def startCount (target first : Expr) : Option World := do
  let n ← (← first.eval F w.store).int?
  w.assign F target (.int (n - 1))

/-- Finds the place of a counter, adds one to it, and compares the sum with the bound. -/
def count (target bound : Expr) : Option (Bool × World) := do
  let q ← target.place F w.store
  let n ← (← w.store.read q).int?
  let S ← w.store.write q (.int (n + 1))
  let limit ← (← bound.eval F S).int?
  return (n + 1 ≤ limit, { w with store := S })

end World

/-- The rounds of a loop from one test to the end of the loop: a test that fails ends it, `break`
leaves it, and any other round leads to the next test. -/
inductive Loops (test : World → Option (Bool × World))
    (round : World → Option Transition → World → Prop) : World → World → Prop
  | done {w w' : World} (ht : test w = some (false, w')) : Loops test round w w'
  | leave {w w₁ w' : World} (ht : test w = some (true, w₁))
    (hr : round w₁ (some .breakLoop) w') : Loops test round w w'
  | again {w w₁ w₂ w' : World} {o : Option Transition} (ht : test w = some (true, w₁))
    (hr : round w₁ o w₂) (ho : o ≠ some .breakLoop) (hl : Loops test round w₂ w') :
    Loops test round w w'

namespace Stmt

variable (F : Floats)

mutual

/-- A statement leads from one world to another, either to its end or to a `break` or `continue` for
the loop around it. -/
def Runs : Stmt → World → Option Transition → World → Prop
  | .block body => RunsAll body
  | .ifElse condition yes none => fun w o w' =>
    w.test F condition = some (true, w) ∧ yes.Runs w o w' ∨
    w.test F condition = some (false, w) ∧ o = none ∧ w' = w
  | .ifElse condition yes (some no) => fun w o w' =>
    w.test F condition = some (true, w) ∧ yes.Runs w o w' ∨
    w.test F condition = some (false, w) ∧ no.Runs w o w'
  | .while condition body => fun w o w' =>
    o = none ∧ Loops (·.test F condition) body.Runs w w'
  | .repeatUntil body condition => fun w o w' =>
    o = none ∧ (body.Runs w (some .breakLoop) w' ∨ ∃ o' w₁, body.Runs w o' w₁ ∧
      o' ≠ some .breakLoop ∧
      Loops (fun w => (w.test F condition).map fun (b, w) => (!b, w)) body.Runs w₁ w')
  | .forTo _ target first bound body => fun w o w' =>
    o = none ∧ ∃ w₁, w.startCount F target first = some w₁ ∧
      Loops (·.count F target bound) body.Runs w₁ w'
  | .assign target e => fun w o w' => o = none ∧ ∃ v, e.eval F w.store = some v ∧
    w.assign F target (v.convert F target.type) = some w'
  | .call .. => fun _ _ _ => False
  | .write newline args => fun w o w' => o = none ∧ ∃ text, w.shownAll F args = some text ∧
    w' = { w with output := w.output ++ text ++ if newline then "\n" else "" }
  | .transition kind _ => fun w o w' => o = some kind ∧ w' = w

/-- Statements are run in order until one does not come to its end. -/
def RunsAll : List Stmt → World → Option Transition → World → Prop
  | [] => fun w o w' => o = none ∧ w' = w
  | s :: ss => fun w o w' =>
    (∃ w₁, s.Runs w none w₁ ∧ RunsAll ss w₁ o w') ∨ o ≠ none ∧ s.Runs w o w'

end

/-- An empty block leads nowhere. -/
theorem runs_block_nil : (block []).Runs F = fun w o w' => o = none ∧ w' = w := by
  rw [Runs, RunsAll]

/-- A block is its first statement and, if that comes to its end, the block of the others. -/
theorem runs_block_cons (s : Stmt) (ss : List Stmt) : (block (s :: ss)).Runs F = fun w o w' =>
    (∃ w₁, s.Runs F w none w₁ ∧ (block ss).Runs F w₁ o w') ∨ o ≠ none ∧ s.Runs F w o w' := by
  rw [Runs, RunsAll, Runs]

end Stmt

/-! ### Programs -/

mutual

/-- What a variable of a type holds at first. -/
def Ty.zero : Ty → Val
  | .scalar .integer => .int 0
  | .scalar .double => .double ⟨0⟩
  | .scalar .boolean => .bool false
  | .array low high t =>
    .parts (List.replicate (((Ty.array low high t).length?).getD 0).toNat t.zero)
  | .record fields => .parts (Ty.zeros fields)

/-- What variables of the types of some fields hold at first. -/
def Ty.zeros : List (Name × Ty) → List Val
  | [] => []
  | (_, t) :: fields => t.zero :: Ty.zeros fields

end

/-- The store in which some variables have their first values. -/
def Store.ofVars (vars : List (Name × Ty)) : Store :=
  vars.foldl (fun S v => Function.update S v.1.canonical (some v.2.zero)) fun _ => none

/-- The program comes to its end and prints the text. -/
def Program.Prints (F : Floats) (p : Program) (o : String) : Prop :=
  ∃ w, (Stmt.block p.statements).Runs F ⟨.ofVars p.scope.vars, ""⟩ none w ∧ w.output = o

/-! ### Programs that have a meaning -/

mutual

/-- Whether no array of the type is longer than 32 bits can count. -/
def Ty.isIndexable : Ty → Bool
  | .scalar _ => true
  | .array low high t =>
    (Ty.array low high t).bounds.all (fun (l, h) => h.toInt - l.toInt < 2 ^ 31) && t.isIndexable
  | .record fields => Ty.allIndexable fields

/-- Whether no array of the types of some fields is longer than 32 bits can count. -/
def Ty.allIndexable : List (Name × Ty) → Bool
  | [] => true
  | (_, t) :: fields => t.isIndexable && Ty.allIndexable fields

end

/-- Whether the expression calls no function. -/
def Expr.callFree : Expr → Bool
  | .int .. | .double .. | .bool .. | .var .. => true
  | .unary _ _ _ e | .field _ _ e _ _ => e.callFree
  | .binary _ _ _ l r => l.callFree && r.callFree
  | .call .. => false
  | .index _ _ a i => a.callFree && i.callFree

/-- Whether no function is called to write the argument. -/
def WriteArg.callFree : WriteArg → Bool
  | .text _ => true
  | .value e => e.callFree

mutual

/-- Whether the statement calls no routine. -/
def Stmt.callFree : Stmt → Bool
  | .block body => Stmt.allCallFree body
  | .ifElse condition yes none => condition.callFree && yes.callFree
  | .ifElse condition yes (some no) => condition.callFree && yes.callFree && no.callFree
  | .while condition body | .repeatUntil body condition => condition.callFree && body.callFree
  | .forTo _ target first bound body =>
    target.callFree && first.callFree && bound.callFree && body.callFree
  | .assign target e => target.callFree && e.callFree
  | .call .. => false
  | .write _ args => args.all WriteArg.callFree
  | .transition .. => true

/-- Whether the statements call no routines. -/
def Stmt.allCallFree : List Stmt → Bool
  | [] => true
  | s :: ss => s.callFree && Stmt.allCallFree ss

end

end MiniPascal
