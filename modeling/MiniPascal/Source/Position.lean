namespace MiniPascal

/-- A line and a column, both from one. -/
structure Position where
  line : Nat
  column : Nat
  deriving DecidableEq, Repr

namespace Position

/-- The position of the first character of a text. -/
def start : Position := ⟨1, 1⟩

instance : Inhabited Position := ⟨start⟩

/-- Tab stops lie this many columns apart. -/
def tabWidth : Nat := 4

/-- The next column. -/
def advance (p : Position) : Position := ⟨p.line, p.column + 1⟩

/-- The column before, never before the first. -/
def back (p : Position) : Position := ⟨p.line, max 1 (p.column - 1)⟩

/-- The first column of the next line. -/
def newline (p : Position) : Position := ⟨p.line + 1, 1⟩

/-- The column just behind the next tab stop. -/
def tab (p : Position) : Position := ⟨p.line, 1 + ((p.column - 1) / tabWidth + 1) * tabWidth⟩

/-- The position behind one character that stands at `p`. -/
def after (p : Position) (c : Char) : Position :=
  if c = '\n' then p.newline else if c = '\t' then p.tab else p.advance

/-- The position behind a list of characters whose first stands at `p`. -/
def afterAll (p : Position) (cs : List Char) : Position := cs.foldl after p

@[simp] theorem afterAll_nil (p : Position) : p.afterAll [] = p := rfl

@[simp] theorem afterAll_cons (p : Position) (c : Char) (cs : List Char) :
    p.afterAll (c :: cs) = (p.after c).afterAll cs := rfl

@[simp] theorem afterAll_append (p : Position) (cs ds : List Char) :
    p.afterAll (cs ++ ds) = (p.afterAll cs).afterAll ds := List.foldl_append

/-- Positions are ordered by line, then by column. -/
instance : Ord Position :=
  ⟨fun p q => (compare p.line q.line).then (compare p.column q.column)⟩

/-- The text `line:column`. -/
def describe (p : Position) : String := s!"{p.line}:{p.column}"

end Position

/-- A value and the position it comes from. -/
structure Located (α : Type) where
  position : Position
  value : α
  deriving DecidableEq, Repr

namespace Located

variable {α β : Type}

/-- Changes the value and keeps the position. -/
def map (f : α → β) (x : Located α) : Located β := ⟨x.position, f x.value⟩

/-- The position, a dash and the text of the value. -/
def describe (text : α → String) (x : Located α) : String :=
  x.position.describe ++ " - " ++ text x.value

end Located

end MiniPascal
