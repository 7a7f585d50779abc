import MiniPascal.Command.Options
import MiniPascal.Command.Writer
import MiniPascal.Diagnostic
import MiniPascal.Ir.Text
import MiniPascal.Lowering.Program

/-! What the command does once its options are known. -/

namespace MiniPascal.Command

/-- What the command leaves to the language it is written in. -/
structure Runtime where
  /-- The text that shows a checked program. -/
  dump : Program → String
  /-- What is said about a panic. -/
  panicText : String → String
  /-- The pieces in which a text gets to a writer. -/
  pieces : String → List String
  join_pieces : ∀ text, String.join (pieces text) = text

/-! ### Texts -/

/-- A text with blanks behind it up to a width. -/
def padRight (width : Nat) (s : String) : String := s ++ Diagnostics.blanks (width - s.length)

/-- A text with blanks in front of it up to a width. -/
def padLeft (width : Nat) (s : String) : String := Diagnostics.blanks (width - s.length) ++ s

/-- A row of the table of tokens. -/
def tokenRow (row column kind text value : String) : String :=
  padLeft 5 row ++ " " ++ padLeft 5 column ++ "  " ++ padRight 16 kind ++ " " ++ padRight 20 text
    ++ " " ++ value

/-- The row of a token. -/
def rowOf (t : Token) : String :=
  tokenRow (toString t.position.line) (toString t.position.column) t.kind.describe t.text t.value

/-- The table of tokens. -/
def tokenTable (ts : List Token) : List String :=
  tokenRow "ROW" "COL" "KIND" "TEXT" "VALUE" :: ts.map rowOf

/-- What faults of a kind are called. -/
def faultKind : Fault → String
  | .lexical _ => "Lexical error"
  | .semantic _ => "Semantic error"
  | .unexpected _ | .expected .. => "Syntax error"

/-- The diagnostics for a source that is not a program. -/
def faultDiagnostics (source : Source) (e : Located Fault) : Diagnostics :=
  ⟨faultKind e.value, some source, [e.map Fault.message]⟩

/-- The diagnostics for a source with lexical errors. -/
def lexicalDiagnostics (source : Source) (errors : List (Located LexError)) : Diagnostics :=
  ⟨"Lexical error", some source, errors.map fun e => e.map LexError.message⟩

namespace Runtime

variable (rt : Runtime)

/-- Writes a text. -/
def writeText (text : String) : Writing :=
  .all ((rt.pieces text).map fun piece => .write (bytesOf piece))

/-- Writes lines. -/
def writeLines (lines : List String) : Writing :=
  .all (lines.map fun line => rt.writeText (line ++ "\n"))

/-- Writes an emission; what has stopped it is a failure of its own. -/
def emit (e : Ir.Emission) : Writing :=
  (rt.writeLines e.lines).andThen
    (match e.failure with
    | none => .skip
    | some u => .fail ⟨u.message, []⟩)

/-! ### Ends -/

/-- Says something on the error output, as far as it is taken. -/
def complain (text : String) : Script Unit := do
  let _ ← rt.writeText text (.direct .stderr)
  return ()

/-- A panic. -/
def panic (message : String) : Script UInt32 := do
  rt.complain (rt.panicText message)
  return 101

/-- The exit code for a result, whose failure is reported. -/
def report : Except Failure Unit → Script UInt32
  | .ok () => return 0
  | .error f => do
    rt.complain f.describe
    return 1

/-- A use of the standard output with which the command ends. What could not be written is tried
once more at the exit. -/
def conclude (use : Writing) (report : Except Failure Unit → Script UInt32) : Script UInt32 := do
  let (result, w) ← use .stdout
  let exit ← report result
  let _ ← Writing.flush w
  return exit

/-- Ends with diagnostics. -/
def reject (d : Diagnostics) : Script UInt32 := do
  match ← rt.writeText d.describe (.direct .stderr) with
  | (.ok (), _) => return 1
  | (.error f, _) => rt.panic ("failed printing to stderr: " ++ f.message)

/-! ### The parts of the command -/

/-- Prints the tokens of a source, comments included. -/
def printTokens (source : Source) : Script UInt32 :=
  match Token.scanAll source.text true with
  | .ok ts => conclude (rt.writeLines (tokenTable ts)) rt.report
  | .error es => rt.reject (lexicalDiagnostics source es)

/-- Prints a checked program. -/
def printTree (p : Program) : Script UInt32 :=
  conclude (rt.writeText (rt.dump p ++ "\n")) fun
    | .ok () => return 0
    | .error f => rt.panic ("failed printing to stdout: " ++ f.message)

/-- Writes the text of a program to a file. -/
def toFile (path : String) (e : Ir.Emission) : Script (Except Failure Unit) := do
  match ← .request (.create path) with
  | .error r =>
    return .error ((Failure.ofRefusal r).within
      (String.join ["Failed to open for writing: ", path]))
  | .ok () =>
    let use := (rt.emit e).within (String.join ["Failed to emit to file: ", path])
    let (result, _) ← use (.direct (.file path))
    let _ ← Script.request (.close (.file path))
    return result

/-- The failure that a status of the linker stands for. -/
def linkerResult (status : Int32) (errors : String) : Except Failure Unit :=
  if status = 0 then .ok ()
  else .error ⟨String.join
    ["linker exited with status code ExitStatus(unix_wait_status(", toString status.toInt, "))\n",
      errors], []⟩

/-- Waits for the linker, whose input is complete. -/
def finish : Script (Except Failure Unit) := do
  match ← .request .errors with
  | .error r => return .error ((Failure.ofRefusal r).within "I/O error")
  | .ok errors =>
    match ← .request .wait with
    | .error r => return .error ((Failure.ofRefusal r).within "I/O error")
    | .ok status => return linkerResult status errors

/-- Gives the text of a program to a linker. -/
def toLinker (o : Options) (e : Ir.Emission) : Script (Except Failure Unit) := do
  match ← .request (.start o.linkerArguments) with
  | .error r => return .error (((Failure.ofRefusal r).within "I/O error").within "Failed to link")
  | .ok () =>
    let generate := String.join ["Failed to generate executable: ", o.target]
    let use := ((rt.emit e).within "Failed to emit IR to the linker").andThen
      ((Writing.flush.within "I/O error").within generate)
    let (result, w) ← use (.buffered (.linker o.linkerArguments))
    let _ ← Writing.flush w
    let _ ← Script.request (.close (.linker o.linkerArguments))
    match result with
    | .error f => return .error f
    | .ok () => return (← finish).mapError (Failure.within generate)

/-- Delivers the text of a program to where the options say. -/
def deliver (o : Options) (e : Ir.Emission) : Script UInt32 :=
  match o.sink with
  | none => rt.report (.error ⟨"Refusing to write executable to stdout", []⟩)
  | some .stdout => conclude
      (((rt.emit e).within "Failed to emit to stdout").andThen .flush) rt.report
  | some (.file path) => rt.toFile path e >>= rt.report
  | some _ => rt.toLinker o e >>= rt.report

/-- Compiles a source. -/
def compile (o : Options) (source : Source) : Script UInt32 :=
  match Program.ofText source.text o.input with
  | .error e => rt.reject (faultDiagnostics source e)
  | .ok p => if o.ast then rt.printTree p else rt.deliver o p.lower.emit

/-- The command, which gives its exit code. -/
def main (o : Options) : Script UInt32 := do
  match ← .request (.read o.input) with
  | .error r =>
    rt.report (.error ((Failure.ofRefusal r).within (String.join ["Failed to read: ", o.input])))
  | .ok text =>
    let source : Source := ⟨o.input, text⟩
    if o.tokens then rt.printTokens source else rt.compile o source

end Runtime

end MiniPascal.Command
