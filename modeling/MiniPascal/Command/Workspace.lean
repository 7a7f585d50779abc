import MiniPascal.Command.Arguments
import MiniPascal.Command.Driver
import MiniPascal.Source.Utf8

/-! A small operating system in which the command can be run: some files, and perhaps a linker. -/

namespace MiniPascal.Command

/-! ### Files -/

/-- Files by the paths that lead to them. A folder is there if a file is in it. -/
structure Directory where
  files : List (String × String)

namespace Directory

/-- The names on a path; empty parts and single points are none. -/
def names (path : String) : List String :=
  ((path.toList.splitOn '/').map String.ofList).filter fun part => part ≠ "" && part ≠ "."

/-- The names on a path with their common folder in front. -/
def join (path : String) (names : List String) : String :=
  (if path.startsWith "/" then "/" else "") ++ "/".intercalate names

/-- The content of a file. -/
def get? (d : Directory) (file : String) : Option String :=
  (d.files.find? fun f => f.1 = file).map Prod.snd

/-- Replaces or adds a file. -/
def put (d : Directory) (file content : String) : Directory :=
  ⟨d.files.filter (fun f => f.1 ≠ file) ++ [(file, content)]⟩

/-- A device that takes no bytes. -/
def fullDevice : String := "/dev/full"

/-- Whether a folder is there. -/
def hasFolder (d : Directory) (folder : String) : Bool :=
  folder = "" || folder = "/" || (fullDevice :: d.files.map Prod.fst).any fun file =>
    file.startsWith (folder ++ "/")

/-- The reason for a missing file. -/
def notFound : String := "No such file or directory (os error 2)"

/-- The reason for a file in place of a directory. -/
def notDirectory : String := "Not a directory (os error 20)"

/-- The reason for a directory in place of a file. -/
def isDirectory : String := "Is a directory (os error 21)"

/-- The reason for bytes that are not taken. -/
def noSpace : String := "No space left on device (os error 28)"

/-- The file that a path leads to, with a flag for a path that asks for a directory. -/
def resolve (d : Directory) (path : String) : Except String (String × Bool) :=
  let parts := names path
  let file := join path parts
  if path = "" then .error notFound
  else if ".." ∈ parts then .error (if parts = [".."] then isDirectory else notFound)
  else if d.hasFolder file then .error isDirectory
  else if d.hasFolder (join path parts.dropLast) then
    .ok (file, path.endsWith "/" || path.endsWith "/.")
  else .error (if (d.get? (join path (parts.take 1))).isSome then notDirectory else notFound)

/-- Reads the file that a path leads to. -/
def read (d : Directory) (path : String) : Except String String := do
  let (file, asDirectory) ← d.resolve path
  match d.get? file with
  | none => .error notFound
  | some content => if asDirectory then .error notDirectory else .ok content

/-- Creates the file that a path leads to. -/
def create (d : Directory) (path : String) : Except String Directory := do
  let (file, asDirectory) ← d.resolve path
  if asDirectory then .error isDirectory
  else if file = fullDevice then .ok d
  else .ok (d.put file "")

/-- Writes behind the end of the file that a path leads to. -/
def append (d : Directory) (path content : String) : Except String Directory := do
  let (file, _) ← d.resolve path
  if file = fullDevice then .error noSpace
  else .ok (d.put file ((d.get? file).getD "" ++ content))

end Directory

/-! ### The operating system -/

/-- A linker: its exit code and error output for arguments and an input. -/
abbrev Linker := List String → String → Nat × String

/-- The files, the linker if there is one, and what it has been given if it has been started. -/
structure Workspace where
  directory : Directory
  linker : Option Linker
  linked : Option (List String × String)

namespace Workspace

/-- What the linker that has been started leaves behind. -/
def linkerOutcome (w : Workspace) : Nat × String :=
  match w.linker, w.linked with
  | some link, some (arguments, input) => link arguments input
  | _, _ => (0, "")

/-- The answer without a result. -/
def refuse {α : Type} (reason : String) : Except Refusal α := .error ⟨reason, 0⟩

/-- The workspace as an operating system. -/
def system : System Workspace
  | .read path, w => ((w.directory.read path).mapError (⟨·, 0⟩), w)
  | .create path, w =>
    match w.directory.create path with
    | .ok directory => (.ok (), { w with directory })
    | .error reason => (refuse reason, w)
  | .start arguments, w =>
    if w.linker.isSome then (.ok (), { w with linked := some (arguments, "") })
    else (refuse Directory.notFound, w)
  | .write (.file path) bytes, w =>
    match w.directory.append path (Utf8.text bytes) with
    | .ok directory => (.ok (), { w with directory })
    | .error reason => (refuse reason, w)
  | .write (.linker _) bytes, w =>
    let linked := w.linked.map fun (args, input) => (args, input ++ Utf8.text bytes)
    (.ok (), { w with linked })
  | .write _ _, w | .close _, w => (.ok (), w)
  | .errors, w => (.ok w.linkerOutcome.2, w)
  | .wait, w => (.ok (Int32.ofNat (w.linkerOutcome.1 * 256)), w)

end Workspace

/-! ### Runs -/

/-- Characters that stand for themselves between quotes, and those that need a backslash. -/
def escapeQuoted (c : Char) : List Char := if c = '\x22' || c = '\\' then ['\\', c] else [c]

/-- A text between double quotes. -/
def inQuotes (s : String) : String :=
  "\"" ++ String.ofList (s.toList.flatMap escapeQuoted) ++ "\""

/-- A list in brackets with each item on a line of its own. -/
def bracketed (indent opening closing : String) (items : List String) : String :=
  if items.isEmpty then opening ++ closing
  else opening ++ "\n" ++ String.join (items.map fun i => indent ++ "    " ++ i ++ ",\n") ++ indent
    ++ closing

/-- An outline of a program: its name, the names it declares with their places, and how many
statements it has. -/
def outline (p : Program) : String :=
  let names := p.scope.names.map fun n => inQuotes n.spelling
  let index := p.scope.names.mapIdx fun i n => inQuotes n.spelling ++ ": " ++ toString i
  let statements := if p.statements.isEmpty then [] else [toString p.statements.length]
  String.join (List.map (· ++ "\n")
    ["Program \x7b",
     "    name: " ++ inQuotes p.name ++ ",",
     "    block: Block \x7b",
     "        scope: Some(",
     "            DeclarationScope \x7b",
     "                entries: " ++ bracketed "                " "[" "]" names ++ ",",
     "                index: " ++ bracketed "                " "\x7b" "\x7d" index ++ ",",
     "            \x7d,",
     "        ),",
     "        statements: " ++ bracketed "        " "[" "]" statements ++ ",",
     "    \x7d,",
     "\x7d"])

/-- The plain form of what the command leaves to its language. -/
def Runtime.plain : Runtime where
  dump := outline
  panicText message := message ++ "\n"
  pieces text := [text]
  join_pieces text := by simp [String.join]

/-- What a command leaves on its output and error output, and its exit code. -/
structure Report where
  exit : UInt32
  stdout : String
  stderr : String
  deriving DecidableEq, Repr

/-- A command line that cannot be understood. -/
def Report.misused (e : UsageError) : Report := ⟨2, "", e.message ++ "\n"⟩

/-- What a run leaves behind. -/
structure Outcome where
  report : Report
  directory : Directory
  /-- The arguments and the input of the linker, if it was started. -/
  linked : Option (List String × String)

/-- The outcome of a run in a workspace. -/
def Outcome.ofRun (r : Run Workspace UInt32) : Outcome :=
  ⟨⟨r.value, Utf8.text (delivered .stdout r.events), Utf8.text (delivered .stderr r.events)⟩,
    r.state.directory, r.state.linked⟩

/-- Runs a command line. -/
def run (d : Directory) (linker : Option Linker) (args : List String) : Outcome :=
  match Options.ofArguments args with
  | .error e => ⟨.misused e, d, none⟩
  | .ok o => .ofRun ((Runtime.plain.main o).run Workspace.system ⟨d, linker, none⟩)

end MiniPascal.Command
