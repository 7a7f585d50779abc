import MiniPascal.Command.Script

/-! Writers, which may keep bytes back, and what fails when they are used. -/

namespace MiniPascal.Command

/-- A failure with its causes, the outermost first. -/
structure Failure where
  message : String
  causes : List String
  deriving DecidableEq, Repr

namespace Failure

/-- A request that was refused. -/
def ofRefusal (r : Refusal) : Failure := ⟨r.reason, []⟩

/-- The failure as the cause of another. -/
def within (message : String) (f : Failure) : Failure := ⟨message, f.message :: f.causes⟩

/-- The lines of a cause: the first behind `first`, the others behind `rest`. -/
def indent (first rest cause : String) : String :=
  first ++ ("\n" ++ rest).intercalate ((cause.toList.splitOn '\n').map String.ofList)

/-- Causes with their numbers. -/
def numberedCauses (causes : List String) : String :=
  String.join (causes.mapIdx fun i cause =>
    indent ("    " ++ toString i ++ ": ") "       " cause ++ "\n")

/-- The causes of a failure; a single one has no number. -/
def causeText : List String → String
  | [] => ""
  | [cause] => String.join ["\nCaused by:\n", indent "    " "    " cause, "\n"]
  | causes => String.join ["\nCaused by:\n", numberedCauses causes]

/-- The report of a failure. -/
def describe (f : Failure) : String :=
  String.join ["Error: ", f.message, "\n", causeText f.causes]

end Failure

/-- The bytes of a text. -/
def bytesOf (s : String) : List UInt8 := s.toUTF8.toList

/-- A writer. It keeps bytes back until more than its capacity have come together; a writer of lines
also hands over what belongs to a line that is over. -/
structure Writer where
  sink : Sink
  capacity : Nat
  lined : Bool
  pending : List UInt8

namespace Writer

/-- A writer that keeps nothing back. -/
def direct (sink : Sink) : Writer := ⟨sink, 0, false, []⟩

/-- A writer with a large buffer. -/
def buffered (sink : Sink) : Writer := ⟨sink, 8192, false, []⟩

/-- The writer of the standard output. -/
def stdout : Writer := ⟨.stdout, 1024, true, []⟩

end Writer

/-- A use of a writer, which may fail. -/
abbrev Writing := Writer → Script (Except Failure Unit × Writer)

namespace Writing

/-- Nothing to do. -/
def skip : Writing := fun w => .done (.ok (), w)

/-- A failure without a request. -/
def fail (f : Failure) : Writing := fun w => .done (.error f, w)

/-- One use behind another, if that does not fail. -/
def andThen (first second : Writing) : Writing := fun w => do
  match ← first w with
  | (.ok (), w) => second w
  | (.error f, w) => return (.error f, w)

/-- Some uses one behind the other. -/
def all : List Writing → Writing
  | [] => skip
  | first :: rest => first.andThen (all rest)

/-- Gives failures another message, with what they were as the cause. -/
def within (message : String) (use : Writing) : Writing := fun w => do
  let (result, w) ← use w
  return (result.mapError (Failure.within message), w)

/-- Hands bytes over at once. -/
def handOver (bytes : List UInt8) : Writing := fun w =>
  if bytes = [] then skip w
  else .ask (.write w.sink bytes) fun
    | .ok () => .done (.ok (), w)
    | .error r => .done (.error (.ofRefusal r), w)

/-- Hands over what has been kept back; what is not taken stays. -/
def flush : Writing := fun w =>
  if w.pending = [] then skip w
  else .ask (.write w.sink w.pending) fun
    | .ok () => .done (.ok (), { w with pending := [] })
    | .error r => .done (.error (.ofRefusal r), { w with pending := w.pending.drop r.taken })

/-- Keeps bytes back. -/
def keep (bytes : List UInt8) : Writing := fun w =>
  .done (.ok (), { w with pending := w.pending ++ bytes })

/-- Keeps bytes back if there is room for them, if need be after what has been kept back is handed
over. -/
def put (bytes : List UInt8) : Writing := fun w =>
  let room := if w.capacity < w.pending.length + bytes.length then flush else skip
  room.andThen (if w.capacity ≤ bytes.length then handOver bytes else keep bytes) w

/-- The byte at the end of lines. -/
def lineFeed : UInt8 := 10

/-- The bytes up to the last line end, and those behind it. -/
def splitLast (bytes : List UInt8) : List UInt8 × List UInt8 :=
  let reversed := bytes.reverse
  ((reversed.dropWhile (· ≠ lineFeed)).reverse, (reversed.takeWhile (· ≠ lineFeed)).reverse)

/-- Hands lines over and keeps the beginning of the next one back. -/
def putLines (bytes : List UInt8) : Writing := fun w =>
  let (lines, rest) := splitLast bytes
  let before :=
    if lines = [] then if w.pending.getLast? = some lineFeed then flush else skip
    else if w.pending = [] then handOver lines
    else (put lines).andThen flush
  before.andThen (put rest) w

/-- Writes bytes. -/
def write (bytes : List UInt8) : Writing := fun w =>
  if w.lined then putLines bytes w else put bytes w

end Writing

end MiniPascal.Command
