import MiniPascal.Command.Options

/-! The options of a command line, for want of a library that reads them. One-letter options may
stand together behind one dash; `--` makes inputs of all arguments behind it. -/

namespace MiniPascal.Command

/-- What is wrong with a command line. -/
inductive UsageError where
  | unknownOption (arg : String)
  | repeatedOption (arg : String)
  | missingValue (arg : String)
  | extraArgument (arg : String)
  | missingInput
  deriving DecidableEq, Repr

/-- The text of the error. -/
def UsageError.message : UsageError → String
  | .unknownOption arg => String.join ["error: unknown option ", arg]
  | .repeatedOption arg => String.join ["error: option ", arg, " is repeated"]
  | .missingValue arg => String.join ["error: option ", arg, " needs a value"]
  | .extraArgument arg => String.join ["error: unexpected argument ", arg]
  | .missingInput => "error: no input file"

/-- The options read so far, possibly without an input. -/
structure Draft where
  input : Option String
  options : Options

namespace Draft

/-- Before the first argument. -/
def empty : Draft := ⟨none, ⟨"", false, false, none, false, false⟩⟩

/-- Takes the input. -/
def withInput (d : Draft) (arg : String) : Except UsageError Draft :=
  if d.input.isSome then .error (.extraArgument arg) else .ok { d with input := some arg }

/-- Takes a flag, which must not be set yet. -/
def withFlag (d : Draft) (name : String) (isSet : Bool) (options : Options) :
    Except UsageError Draft :=
  if isSet then .error (.repeatedOption name) else .ok { d with options := options }

/-- Takes the output. -/
def withOutput (d : Draft) (path : String) : Except UsageError Draft :=
  d.withFlag "-o" d.options.output.isSome { d.options with output := some path }

/-- What an argument leaves to be done. -/
inductive Pending where
  | done (d : Draft)
  /-- The last option waits for the next argument as its value. -/
  | needsOutput (d : Draft)

/-- The value that stands right behind its option, where a `=` in front does not count. -/
def attachedValue : List Char → String
  | '=' :: cs => String.ofList cs
  | cs => String.ofList cs

/-- Takes one-letter options. -/
def withLetters (d : Draft) : List Char → Except UsageError Pending
  | [] => .ok (.done d)
  | 'S' :: cs => do
    let d ← d.withFlag "-S" d.options.asm { d.options with asm := true }
    withLetters d cs
  | 's' :: cs => do
    let d ← d.withFlag "-s" d.options.strip { d.options with strip := true }
    withLetters d cs
  | ['o'] => .ok (.needsOutput d)
  | 'o' :: cs => do return .done (← d.withOutput (attachedValue cs))
  | c :: _ => .error (.unknownOption ("-" ++ c.toString))

/-- Takes inputs only. -/
def withInputs (d : Draft) : List String → Except UsageError Draft
  | [] => .ok d
  | arg :: args => do withInputs (← d.withInput arg) args

/-- Whether an argument is an option and so cannot be the value of one. -/
def isOption (arg : String) : Bool := arg.toList.head? = some '-' && arg ≠ "-"

/-- Takes an argument that is neither `--` nor the value of an option. -/
def withArgument (d : Draft) (arg : String) : Except UsageError Pending :=
  if arg = "--tokens" then do
    return .done (← d.withFlag arg d.options.tokens { d.options with tokens := true })
  else if arg = "--ast" then do
    return .done (← d.withFlag arg d.options.ast { d.options with ast := true })
  else if !isOption arg then do return .done (← d.withInput arg)
  else if arg.startsWith "--" then .error (.unknownOption arg)
  else d.withLetters (arg.toList.drop 1)

/-- Takes all arguments. -/
def withArguments : Pending → List String → Except UsageError Draft
  | .done d, [] => .ok d
  | .done d, arg :: args =>
    if arg = "--" then d.withInputs args else do withArguments (← d.withArgument arg) args
  | .needsOutput _, [] => .error (.missingValue "-o")
  | .needsOutput d, path :: args =>
    if isOption path then .error (.missingValue "-o")
    else do withArguments (.done (← d.withOutput path)) args

end Draft

/-- The options of a command line. -/
def Options.ofArguments (args : List String) : Except UsageError Options := do
  let d ← Draft.withArguments (.done .empty) args
  match d.input with
  | some input => return { d.options with input }
  | none => .error .missingInput

end MiniPascal.Command
