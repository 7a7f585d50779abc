import MiniPascal.Token.Lexeme

/-! The tokens of a text and a tokenizer that hands them out one by one. An error takes the place of
a token, and the cutting goes on behind it. -/

namespace MiniPascal

namespace Token

/-- A token, or the reason and the place where there is none. -/
abbrev Result := Except (Located LexError) Token

/-- What a cut piece at a position gives. Blanks give nothing, and neither do comments unless they
are kept. -/
def Cut.result? (cut : Cut) (comments : Bool) (p : Position) : Option Result :=
  match cut.verdict with
  | .blanks => none
  | .failure e => some (.error ⟨p, e⟩)
  | .token kind literal =>
    if kind = .comment && !comments then none
    else some (.ok ⟨p, kind, String.ofList cut.text, literal⟩)

/-- The results of a text whose first character stands at a position. -/
def scanFrom (comments : Bool) (p : Position) : List Char → List Result
  | [] => []
  | c :: cs =>
    let cut := lexeme c cs
    let results := scanFrom comments (p.afterAll cut.text) cut.rest
    match cut.result? comments p with
    | some r => r :: results
    | none => results
termination_by cs => cs.length
decreasing_by exact Nat.lt_succ_of_le (lexeme_rest_le c cs)

/-- The results of a text in order, without the end of the text. -/
def scan (text : String) (comments : Bool) : List Result :=
  scanFrom comments Position.start text.toList

/-- The position behind the last character of a text. -/
def endPosition (text : String) : Position := Position.start.afterAll text.toList

end Token

/-- Hands out the results of a text. -/
structure Tokenizer where
  /-- The results not handed out yet. -/
  pending : List Token.Result
  /-- Where the text ends. -/
  stop : Position
  /-- The token handed out last. -/
  current : Option Token
  /-- Whether `next?` has met the end of the text. -/
  finished : Bool

namespace Tokenizer

/-- A tokenizer before its first token. -/
def ofText (text : String) (comments : Bool) : Tokenizer :=
  ⟨Token.scan text comments, Token.endPosition text, none, false⟩

/-- The next result. An error is handed out once and leaves the last token as it was. -/
def nextToken (t : Tokenizer) : Token.Result × Tokenizer :=
  match t.pending with
  | [] => (.ok (.endOfFile t.stop), { t with current := some (.endOfFile t.stop) })
  | .error e :: rest => (.error e, { t with pending := rest })
  | .ok token :: rest => (.ok token, { t with pending := rest, current := some token })

/-- The last token again, or the first result if there has been no token. -/
def currentToken (t : Tokenizer) : Token.Result × Tokenizer :=
  match t.current with
  | some token => (.ok token, t)
  | none => t.nextToken

/-- The next result; from the end of the text on, nothing. -/
def next? (t : Tokenizer) : Option Token.Result × Tokenizer :=
  if t.finished then (none, t)
  else
    match t.nextToken with
    | (.ok token, t') =>
      if token.kind = .endOfFile then (none, { t' with finished := true })
      else (some (.ok token), t')
    | (.error e, t') => (some (.error e), t')

end Tokenizer

namespace Token

/-- The errors among some results. -/
def errors (rs : List Result) : List (Located LexError) :=
  rs.filterMap fun r => match r with
    | .error e => some e
    | .ok _ => none

/-- The tokens among some results. -/
def tokens (rs : List Result) : List Token :=
  rs.filterMap fun r => match r with
    | .error _ => none
    | .ok token => some token

/-- All tokens of a text if it has no errors, else all its errors. -/
def scanAll (text : String) (comments : Bool) : Except (List (Located LexError)) (List Token) :=
  let rs := scan text comments
  match errors rs with
  | [] => .ok (tokens rs)
  | es => .error es

end Token

end MiniPascal
