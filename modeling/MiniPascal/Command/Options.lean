import MiniPascal.Command.Script

/-! What a command line asks for, and where the result goes. -/

namespace MiniPascal.Command

/-- What the command line asks for. -/
structure Options where
  input : String
  /-- Write the intermediate representation instead of linking. -/
  asm : Bool
  /-- Strip the executable. -/
  strip : Bool
  /-- Where the result goes, if not to the default place. -/
  output : Option String
  /-- Print the tokens and stop. -/
  tokens : Bool
  /-- Print the checked program and stop. -/
  ast : Bool
  deriving DecidableEq, Repr

/-- Drops what names nothing from the end of a path in reverse: slashes and single points. -/
def dropUnnamed : List Char → List Char
  | '/' :: cs | '.' :: '/' :: cs => dropUnnamed cs
  | cs => cs

/-- A file name without its extension; a point in front starts no extension. -/
def stem (name : List Char) : List Char :=
  match (name.reverse.dropWhile (· ≠ '.')).drop 1 with
  | [] => name
  | reversed => reversed.reverse

/-- The path with another extension, if it ends in the name of a file. -/
def withExtension (path : String) (extension : String) : String :=
  let reversed := dropUnnamed path.toList.reverse
  let folder := (reversed.dropWhile (· ≠ '/')).reverse
  let name := (reversed.takeWhile (· ≠ '/')).reverse
  if name = [] ∨ name = ['.'] ∨ name = ['.', '.'] then path
  else String.ofList (folder ++ stem name ++ '.' :: extension.toList)

namespace Options

/-- Where the result goes. -/
def target (o : Options) : String :=
  match o.output with
  | some path => path
  | none => if o.asm then withExtension o.input "ll" else "a.out"

/-- The arguments of the linker, which reads the intermediate representation from its input. -/
def linkerArguments (o : Options) : List String :=
  ["-x", "ir", "-", "-o", o.target] ++ (if o.strip then ["-s"] else [])

/-- The sink for the result; there is none when an executable would go to the standard output. -/
def sink (o : Options) : Option Sink :=
  if o.asm then some (if o.target = "-" then .stdout else .file o.target)
  else if o.target = "-" then none
  else some (.linker o.linkerArguments)

end Options

end MiniPascal.Command
