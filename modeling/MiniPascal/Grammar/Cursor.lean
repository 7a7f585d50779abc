import MiniPascal.Token.Stream
import MiniPascal.Typing.Error

/-! A cursor over the tokens of a text, with one token in sight. The results of reading prove how
the number of tokens left has changed, so every rule ends. -/

namespace MiniPascal

/-- Why a text is not a program. -/
inductive Fault where
  /-- A symbol with which nothing can go on here. -/
  | unexpected (found : String)
  /-- Another symbol than the only one that can go on here. -/
  | expected (kind : Token.Kind) (found : String)
  | lexical (e : LexError)
  | semantic (e : SemanticError)

/-- The text of the fault. -/
def Fault.message : Fault → String
  | .unexpected found => String.join ["unexpected symbol ", found]
  | .expected kind found => String.join ["expected ", kind.describe, " before ", found]
  | .lexical e => e.message
  | .semantic e => e.message

/-- The result of reading, or the first fault. -/
abbrev Read := Except (Located Fault)

/-- A checked result as a result of reading. -/
def Read.checked {α : Type} (r : Checked α) : Read α :=
  r.mapError fun e => e.map Fault.semantic

/-- The token in sight, the results behind it and the end of the text. -/
structure Cursor where
  current : Token
  pending : List Token.Result
  stop : Position

namespace Cursor

/-- The number of results left, the one in sight included and the end of the text not. -/
def size (c : Cursor) : Nat := if c.current.kind = .endOfFile then 0 else c.pending.length + 1

/-- A value read with at least one token, and the cursor behind it. -/
structure Taken (c : Cursor) (α : Type) where
  value : α
  rest : Cursor
  lt : rest.size < c.size

/-- A value read with any number of tokens, and the cursor behind it. -/
structure Passed (c : Cursor) (α : Type) where
  value : α
  rest : Cursor
  le : rest.size ≤ c.size

namespace Taken

variable {c d : Cursor} {α : Type}

/-- What has been taken behind something taken, as taken from before both. -/
def after (t : Taken d α) (h : d.size < c.size) : Taken c α :=
  ⟨t.value, t.rest, Nat.lt_trans t.lt h⟩

/-- What has been taken behind something passed, as taken from before both. -/
def past (t : Taken d α) (h : d.size ≤ c.size) : Taken c α :=
  ⟨t.value, t.rest, Nat.lt_of_lt_of_le t.lt h⟩

/-- What has been taken, as passed. -/
def passed (t : Taken c α) : Passed c α := ⟨t.value, t.rest, Nat.le_of_lt t.lt⟩

end Taken

namespace Passed

variable {c d : Cursor} {α : Type}

/-- A value for which nothing is read. -/
def stay (value : α) : Passed c α := ⟨value, c, Nat.le_refl c.size⟩

/-- What has been passed behind something taken, as taken from before both. -/
def after (t : Passed d α) (h : d.size < c.size) : Taken c α :=
  ⟨t.value, t.rest, Nat.lt_of_le_of_lt t.le h⟩

end Passed

/-- Goes on to the next token. -/
def advance (c : Cursor) : Read Cursor :=
  match c.pending with
  | [] => .ok { c with current := .endOfFile c.stop }
  | .ok token :: rest => .ok { c with current := token, pending := rest }
  | .error e :: _ => .error (e.map Fault.lexical)

theorem size_of_advance {c d : Cursor} (hc : c.current.kind ≠ .endOfFile)
    (h : c.advance = .ok d) : d.size < c.size := by
  unfold advance at h
  split at h
  · cases h
    simp [size, hc, Token.endOfFile]
  · rename_i token rest hp
    cases h
    simp only [size, hc, hp, if_false, List.length_cons]
    split <;> omega
  · cases h

/-- Takes the token in sight, which is not the end of the text. -/
def take (c : Cursor) (hc : c.current.kind ≠ .endOfFile) : Read (Taken c Token) :=
  match h : c.advance with
  | .ok d => .ok ⟨c.current, d, size_of_advance hc h⟩
  | .error e => .error e

/-- The fault of a symbol that is not the expected one. -/
def missing {α : Type} (c : Cursor) (kind : Token.Kind) : Read α :=
  .error ⟨c.current.position, .expected kind c.current.describe⟩

/-- The fault of a symbol that nothing can start with. -/
def unexpected {α : Type} (c : Cursor) : Read α :=
  .error ⟨c.current.position, .unexpected c.current.describe⟩

/-- Takes a token of the given kind; the end of the text is never taken. -/
def expect (c : Cursor) (kind : Token.Kind) : Read (Taken c Token) :=
  if h : c.current.kind = .endOfFile then c.missing kind
  else if c.current.kind = kind then c.take h
  else c.missing kind

/-- Takes a symbol. -/
def symbol (c : Cursor) (s : Symbol) : Read (Taken c Token) := c.expect (.symbol s)

/-- Takes a keyword. -/
def keyword (c : Cursor) (k : Keyword) : Read (Taken c Token) := c.expect (.keyword k)

/-- Takes an identifier. -/
def identifier (c : Cursor) : Read (Taken c (Located Name)) := do
  let ⟨token, d, h⟩ ← c.expect .identifier
  return ⟨⟨token.position, ⟨token.text⟩⟩, d, h⟩

/-- Whether a symbol is in sight. -/
def sees (c : Cursor) (s : Symbol) : Bool := c.current.kind = .symbol s

/-- Whether a keyword is in sight. -/
def seesKeyword (c : Cursor) (k : Keyword) : Bool := c.current.kind = .keyword k

/-- Takes the token in sight if its kind is selected. -/
def accept {α : Type} (c : Cursor) (select : Token.Kind → Option α) :
    Read (Option (Taken c (α × Token))) :=
  if h : c.current.kind = .endOfFile then .ok none
  else
    match select c.current.kind with
    | none => .ok none
    | some a => do
      let ⟨token, d, hd⟩ ← c.take h
      return some ⟨(a, token), d, hd⟩

/-- Takes a symbol if it is in sight. -/
def acceptSymbol (c : Cursor) (s : Symbol) : Read (Option (Taken c Token)) := do
  match ← c.accept fun k => if k = .symbol s then some () else none with
  | some ⟨(_, token), d, h⟩ => return some ⟨token, d, h⟩
  | none => return none

/-- Takes a keyword if it is in sight. -/
def acceptKeyword (c : Cursor) (k : Keyword) : Read (Option (Taken c Token)) := do
  match ← c.accept fun kind => if kind = .keyword k then some () else none with
  | some ⟨(_, token), d, h⟩ => return some ⟨token, d, h⟩
  | none => return none

/-- Takes the end of the text. -/
def finish (c : Cursor) : Read Unit :=
  if c.current.kind = .endOfFile then .ok () else c.missing .endOfFile

/-- The cursor on the first token of a text. -/
def ofText (text : String) : Read Cursor :=
  let stop := Token.endPosition text
  advance ⟨.endOfFile stop, Token.scan text false, stop⟩

/-- Identifiers with commas between them. -/
def identifiers (c : Cursor) : Read (Taken c (List (Located Name))) := do
  let ⟨name, c₁, h₁⟩ ← c.identifier
  match ← c₁.acceptSymbol .comma with
  | none => return ⟨[name], c₁, h₁⟩
  | some ⟨_, c₂, h₂⟩ =>
    let ⟨names, c₃, h₃⟩ ← c₂.identifiers
    return Taken.mk (name :: names) c₃ h₃ |>.after h₂ |>.after h₁
termination_by c.size

end Cursor

end MiniPascal
