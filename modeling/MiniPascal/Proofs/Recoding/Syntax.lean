import Mathlib
import MiniPascal.Scope.Stack

/-! A `Recoding` moves every position and may write capital letters in another way. -/

namespace MiniPascal

/-! ### Letters in lower case -/

/-- Only letters of ASCII have another form in lower case. -/
theorem toLower_of_le {ch : Char} (h : 128 ≤ ch.toNat) : ch.toLower = ch := by
  have hval : 128 ≤ ch.val.toNat := h
  refine dif_neg fun hupper => ?_
  simp only [UInt32.le_iff_toNat_le, UInt32.reduceToNat, Char.reduceVal, ge_iff_le] at hupper
  omega

/-- What holds of all of ASCII and of whatever has no other form in lower case holds of every
character. -/
theorem forall_char {p : Char → Prop} (hascii : ∀ n < 128, p (Char.ofNat n))
    (hfixed : ∀ ch : Char, ch.toLower = ch → p ch) (ch : Char) : p ch := by
  by_cases h : ch.toNat < 128
  · rw [← Char.ofNat_toNat ch]
    exact hascii ch.toNat h
  · exact hfixed ch (toLower_of_le (Nat.le_of_not_lt h))

theorem toLower_of_isDigit : ∀ ch : Char, ch.isDigit = true → ch.toLower = ch :=
  forall_char (by decide +kernel) fun _ h _ => h

/-- A change of positions and of capital letters. -/
structure Recoding where
  position : Position → Position
  letter : Char → Char
  lower : ∀ ch, (letter ch).toLower = ch.toLower
  /-- Only capital letters are changed. -/
  fixed : ∀ ch, ch.toLower = ch → letter ch = ch

namespace Recoding

/-- Letters in lower case, and positions as they are. -/
def folding : Recoding := ⟨id, Char.toLower, Char.toLower_toLower_eq_toLower, fun _ h => h⟩

variable (ρ : Recoding)

/-- A text in other letters. -/
def text (s : String) : String := String.ofList (s.toList.map ρ.letter)

/-- A name in other letters. -/
def name (n : Name) : Name := ⟨ρ.text n.spelling⟩

/-- A located value at another place. -/
def located {α β : Type} (f : α → β) (x : Located α) : Located β :=
  ⟨ρ.position x.position, f x.value⟩

mutual

def ty : Ty → Ty
  | .scalar s => .scalar s
  | .array low high element => .array (expr low) (expr high) (ty element)
  | .record fs => .record (fields fs)

def fields : List (Name × Ty) → List (Name × Ty)
  | [] => []
  | (n, t) :: fs => (ρ.name n, ty t) :: fields fs

def expr : Expr → Expr
  | .int p value => .int (ρ.position p) value
  | .double p value => .double (ρ.position p) value
  | .bool p value => .bool (ρ.position p) value
  | .var p t n storage => .var (ρ.position p) (ty t) (ρ.name n) storage
  | .unary p t op e => .unary (ρ.position p) (ty t) op (expr e)
  | .binary p t op left right => .binary (ρ.position p) (ty t) op (expr left) (expr right)
  | .call p t n symbol args params =>
    .call (ρ.position p) (ty t) (ρ.name n) symbol (exprs args) (tys params)
  | .index p t array index => .index (ρ.position p) (ty t) (expr array) (expr index)
  | .field p t record n slot => .field (ρ.position p) (ty t) (expr record) (ρ.name n) slot

def exprs : List Expr → List Expr
  | [] => []
  | e :: es => expr e :: exprs es

def tys : List Ty → List Ty
  | [] => []
  | t :: ts => ty t :: tys ts

end

/-- What is written, recoded; a text that is printed stays as it is. -/
def writeArg : WriteArg → WriteArg
  | .value e => .value (ρ.expr e)
  | .text s => .text s

mutual

def stmt : Stmt → Stmt
  | .block body => .block (stmts body)
  | .ifElse condition yes none => .ifElse (ρ.expr condition) (stmt yes) none
  | .ifElse condition yes (some no) => .ifElse (ρ.expr condition) (stmt yes) (some (stmt no))
  | .forTo p target value bound body =>
    .forTo (ρ.position p) (ρ.expr target) (ρ.expr value) (ρ.expr bound) (stmt body)
  | .while condition body => .while (ρ.expr condition) (stmt body)
  | .repeatUntil body condition => .repeatUntil (stmt body) (ρ.expr condition)
  | .assign target value => .assign (ρ.expr target) (ρ.expr value)
  | .call n symbol args params returns =>
    .call (ρ.name n) symbol (ρ.exprs args) (ρ.tys params) (returns.map ρ.ty)
  | .write newline args => .write newline (args.map ρ.writeArg)
  | .transition kind p => .transition kind (ρ.position p)

def stmts : List Stmt → List Stmt
  | [] => []
  | s :: ss => stmt s :: stmts ss

end

mutual

def declaration : Declaration → Declaration
  | .var p t => .var (ρ.position p) (ρ.ty t)
  | .const p value => .const (ρ.position p) (ρ.expr value)
  | .type p t => .type (ρ.position p) (ρ.ty t)
  | .routine r => .routine (routine r)

def routine : Routine → Routine
  | ⟨p, symbol, params, returns, none, forward⟩ =>
    ⟨ρ.position p, symbol, scope params, returns.map ρ.ty, none, forward⟩
  | ⟨p, symbol, params, returns, some body, forward⟩ =>
    ⟨ρ.position p, symbol, scope params, returns.map ρ.ty, some (block body), forward⟩

def block : Block → Block
  | ⟨s, ss⟩ => ⟨scope s, ρ.stmts ss⟩

def scope : Scope → Scope
  | ⟨es⟩ => ⟨entries es⟩

def entries : List (Name × Declaration) → List (Name × Declaration)
  | [] => []
  | (n, d) :: es => (ρ.name n, declaration d) :: entries es

end

def level (l : Level) : Level := ⟨ρ.scope l.params, ρ.scope l.locals⟩

def scopes (s : Scopes) : Scopes := ⟨ρ.scope s.globals, s.levels.map ρ.level⟩

/-- A program, whose name is text like any other. -/
def program (p : Program) : Program := ⟨ρ.text p.name, ρ.scope p.scope, ρ.stmts p.statements⟩

/-! ### Lists and options -/

theorem fields_eq_map (fs : List (Name × Ty)) : ρ.fields fs = fs.map (Prod.map ρ.name ρ.ty) := by
  induction fs with
  | nil => simp [fields]
  | cons f fs ih =>
    obtain ⟨n, t⟩ := f
    simp [fields, ih]

theorem exprs_eq_map (es : List Expr) : ρ.exprs es = es.map ρ.expr := by
  induction es with
  | nil => simp [exprs]
  | cons e es ih => simp [exprs, ih]

theorem tys_eq_map (ts : List Ty) : ρ.tys ts = ts.map ρ.ty := by
  induction ts with
  | nil => simp [tys]
  | cons t ts ih => simp [tys, ih]

theorem stmts_eq_map (ss : List Stmt) : ρ.stmts ss = ss.map ρ.stmt := by
  induction ss with
  | nil => simp [stmts]
  | cons s ss ih => simp [stmts, ih]

theorem entries_eq_map (es : List (Name × Declaration)) :
    ρ.entries es = es.map (Prod.map ρ.name ρ.declaration) := by
  induction es with
  | nil => simp [entries]
  | cons e es ih =>
    obtain ⟨n, d⟩ := e
    simp [entries, ih]

@[simp] theorem stmt_block (body : List Stmt) :
    ρ.stmt (.block body) = .block (body.map ρ.stmt) := by
  rw [stmt, stmts_eq_map]

theorem routine_eq (r : Routine) :
    ρ.routine r =
      ⟨ρ.position r.position, r.symbol, ρ.scope r.params, r.returns.map ρ.ty,
        r.body.map ρ.block, r.forward⟩ := by
  obtain ⟨p, symbol, params, returns, body, forward⟩ := r
  cases body <;> simp [routine]

end Recoding

end MiniPascal
