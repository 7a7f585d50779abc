import MiniPascal.Command.Workspace

namespace MiniPascal.Command.Console

/-- The reason that the operating system gives for a failure. -/
def reasonOf : IO.Error → String
  | .noFileOrDirectory _ code details => s!"{details} (os error {code})"
  | .permissionDenied _ code details => s!"{details} (os error {code})"
  | .inappropriateType _ code details => s!"{details} (os error {code})"
  | e => toString e

/-- The outcome of an action of the file system. -/
def attempt {α : Type} (act : IO α) : IO (Except Refusal α) := do
  match ← act.toBaseIO with
  | .ok a => return .ok a
  | .error e => return .error ⟨reasonOf e, 0⟩

/-- The stream or file of a sink. -/
def write (file : Option IO.FS.Handle) (sink : Sink) (bytes : ByteArray) : IO Unit := do
  match sink, file with
  | .stdout, _ => (← IO.getStdout).write bytes
  | .stderr, _ => (← IO.getStderr).write bytes
  | _, some handle => handle.write bytes
  | _, none => throw (IO.userError "not open")

/-- Carries a request out, with the file that has been created if there is one. There is no linker
to start here. -/
def carryOut (file : Option IO.FS.Handle) :
    (r : Request) → IO (r.Answer × Option IO.FS.Handle)
  | .read path => do return (← attempt (IO.FS.readFile path), file)
  | .create path => do
    match ← attempt (IO.FS.Handle.mk path .write) with
    | .ok handle => return (.ok (), some handle)
    | .error r => return (.error r, file)
  | .write sink bytes => do return (← attempt (write file sink bytes.toByteArray), file)
  | .close _ => return (.ok (), none)
  | .start _ => return (.error ⟨Directory.notFound, 0⟩, file)
  | .errors => return (.ok "", file)
  | .wait => return (.ok 0, file)

/-- Carries a script out. -/
def perform {α : Type} (file : Option IO.FS.Handle) : Script α → IO α
  | .done a => return a
  | .ask r next => do
    let (answer, file) ← carryOut file r
    perform file (next answer)

end MiniPascal.Command.Console

/-- Runs the command line and gives its exit code. -/
def main (args : List String) : IO UInt32 := do
  match MiniPascal.Command.Options.ofArguments args with
  | .error e =>
    (← IO.getStderr).putStrLn e.message
    return 2
  | .ok o => MiniPascal.Command.Console.perform none (MiniPascal.Command.Runtime.plain.main o)
