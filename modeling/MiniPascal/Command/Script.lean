/-! What a command asks of the operating system, and how it runs on one. -/

namespace MiniPascal.Command

/-- Where bytes are written. -/
inductive Sink where
  | stdout
  | stderr
  | file (path : String)
  /-- The input of the linker that is started with some arguments. -/
  | linker (arguments : List String)
  deriving DecidableEq, Repr

/-- What can be asked of the operating system. -/
inductive Request where
  /-- The text of a file. -/
  | read (path : String)
  /-- A new file, or an old one without its content. -/
  | create (path : String)
  /-- A linker with its input and error output in reach. -/
  | start (arguments : List String)
  /-- All of the bytes, behind what has been written to the sink before. -/
  | write (sink : Sink) (bytes : List UInt8)
  /-- No more bytes for the sink. -/
  | close (sink : Sink)
  /-- The error output of the linker up to its end. -/
  | errors
  /-- The status that the linker leaves. -/
  | wait
  deriving DecidableEq, Repr

namespace Request

/-- What a request gives when it is granted. -/
@[reducible]
def Value : Request → Type
  | read _ | errors => String
  | wait => Int32
  | create _ | start _ | write .. | close _ => Unit

/-- The sink that a request opens, fills or closes. -/
def sink? : Request → Option Sink
  | create path => some (.file path)
  | start arguments => some (.linker arguments)
  | write sink _ | close sink => some sink
  | read _ | errors | wait => none

end Request

/-- Why a request is refused, and how many bytes of a write had been taken by then. -/
structure Refusal where
  reason : String
  taken : Nat
  deriving DecidableEq, Repr

/-- The answer to a request. -/
abbrev Request.Answer (r : Request) := Except Refusal r.Value

/-- A request and its answer. -/
structure Event where
  request : Request
  answer : request.Answer

/-- The request has been granted. -/
def Event.Granted (e : Event) : Prop := e.answer.isOk = true

/-- The bytes that a sink has taken with an event. -/
def Event.taken (sink : Sink) : Event → List UInt8
  | ⟨.write target bytes, answer⟩ =>
    if target = sink then
      match answer with
      | .ok () => bytes
      | .error r => bytes.take r.taken
    else []
  | _ => []

/-- The bytes that a sink has taken with some events. -/
def delivered (sink : Sink) (events : List Event) : List UInt8 := events.flatMap (Event.taken sink)

/-- Requests, each of which may depend on the answers to those before it, and a value at the end. -/
inductive Script (α : Type) where
  | done (value : α)
  | ask (request : Request) (next : request.Answer → Script α)

/-- An operating system answers a request in each of its states, and goes on to another state. -/
abbrev System (σ : Type) := (r : Request) → σ → r.Answer × σ

/-- What a run has come to. -/
structure Run (σ α : Type) where
  value : α
  events : List Event
  state : σ

namespace Script

variable {α β σ : Type}

/-- One script behind another. -/
def bind : Script α → (α → Script β) → Script β
  | done a, f => f a
  | ask r next, f => ask r fun answer => (next answer).bind f

instance : Monad Script where
  pure := done
  bind := bind

/-- A single request. -/
def request (r : Request) : Script r.Answer := ask r done

/-- The run of a script on an operating system in some state. -/
def run (system : System σ) : Script α → σ → Run σ α
  | done a, s => ⟨a, [], s⟩
  | ask r next, s =>
    let (answer, s') := system r s
    let rest := (next answer).run system s'
    { rest with events := ⟨r, answer⟩ :: rest.events }

end Script

end MiniPascal.Command
