import MiniPascal.Source.Position

namespace MiniPascal

/-- A whole source text and the name it is reported under. -/
structure Source where
  name : String
  text : String

namespace Source

/-- Puts a character in front of the first line. -/
def prepend (c : Char) : List (List Char) → List (List Char)
  | [] => [[c]]
  | line :: lines => (c :: line) :: lines

/-- Cuts a text into lines. -/
def splitLines : List Char → List (List Char)
  | [] => []
  | '\r' :: '\n' :: cs => [] :: splitLines cs
  | '\n' :: cs => [] :: splitLines cs
  | c :: cs => prepend c (splitLines cs)

/-- The lines of the text in order. -/
def lines (source : Source) : List String :=
  (splitLines source.text.toList).map String.ofList

/-- The line of the given number, counted from one. -/
def line? (source : Source) (number : Nat) : Option String :=
  if number = 0 then none else source.lines[number - 1]?

end Source

end MiniPascal
