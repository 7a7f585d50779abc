import MiniPascal.Source.Text

/-! Reports of located errors, each with the line it is found in and a caret below the place. -/

namespace MiniPascal

/-- Errors to report together. -/
structure Diagnostics where
  /-- What the errors are called. -/
  kind : String
  /-- The text to quote lines of. -/
  source : Option Source
  /-- The places and texts of the errors. -/
  errors : List (Located String)

namespace Diagnostics

/-- A report of errors that quotes nothing. -/
def ofErrors (errors : List (Located String)) : Diagnostics := ⟨"error", none, errors⟩

/-- The name of the text. -/
def sourceName (d : Diagnostics) : String := d.source.elim "<input>" Source.name

/-- So many blanks. -/
def blanks (n : Nat) : String := String.ofList (List.replicate n ' ')

/-- The lines that quote a source line, with a caret below a position. -/
def quotation (p : Position) (line : String) : List String :=
  let margin := blanks (toString p.line).length
  [margin ++ " |",
   toString p.line ++ " | " ++ line,
   margin ++ " | " ++ blanks (p.column - 1) ++ "^"]

/-- The lines of one error. -/
def errorLines (d : Diagnostics) (e : Located String) : List String :=
  let quoted := (d.source.bind (·.line? e.position.line)).elim [] (quotation e.position)
  [d.kind ++ ": " ++ e.value, " --> " ++ d.sourceName ++ ":" ++ e.position.describe]
    ++ quoted ++ [""]

/-- The last line, which counts the errors. -/
def summary (d : Diagnostics) : String :=
  let count := d.errors.length
  String.join ["Build failed with ", toString count, if count = 1 then " error" else " errors"]

/-- The lines of the report. -/
def lines (d : Diagnostics) : List String :=
  if d.errors.isEmpty then ["No errors were reported"]
  else d.errors.flatMap d.errorLines ++ [d.summary]

/-- The report as a text whose lines all end. -/
def describe (d : Diagnostics) : String := String.join (d.lines.map (· ++ "\n"))

end Diagnostics

end MiniPascal
