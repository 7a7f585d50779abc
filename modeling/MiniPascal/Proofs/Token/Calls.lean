import MiniPascal.Proofs.Token.Alone
import MiniPascal.Proofs.Token.Pieces

/-! However the calls of a tokenizer are mixed, it hands out the results of its text in order. -/

namespace MiniPascal

open Token (Result)

namespace Token

/-! ### Scanning again and again -/

/-- What is left of a text to be scanned. -/
structure Remainder where
  /-- Where the first character stands. -/
  position : Position
  text : List Char

namespace Remainder

/-- All of a text. -/
def ofText (text : String) : Remainder := ⟨.start, text.toList⟩

/-- The position behind the last character. -/
def stop (r : Remainder) : Position := r.position.afterAll r.text

/-- One scan cuts off pieces up to the first that gives a result. At the end of the text the result
is that end, and nothing is cut off. -/
def scan (keep : Bool) : Remainder → Result × Remainder
  | ⟨p, []⟩ => (.ok (.endOfFile p), ⟨p, []⟩)
  | ⟨p, c :: cs⟩ =>
    let cut := lexeme c cs
    let behind : Remainder := ⟨p.afterAll cut.text, cut.rest⟩
    match cut.result? keep p with
    | some result => (result, behind)
    | none => scan keep behind
termination_by r => r.text.length
decreasing_by exact Nat.lt_succ_of_le (lexeme_rest_le c cs)

/-- The result of one more scan behind so many others. -/
def nth (keep : Bool) : Nat → Remainder → Result
  | 0, r => (r.scan keep).1
  | k + 1, r => nth keep k (r.scan keep).2

/-- The results that cutting all of the text gives. -/
def results (keep : Bool) (r : Remainder) : List Result := scanFrom keep r.position r.text

/-- A scan hands out the first result, or the end of the text if there is none. -/
theorem scan_cases (keep : Bool) (r : Remainder) :
    r.results keep = [] ∧ r.scan keep = (.ok (.endOfFile r.stop), ⟨r.stop, []⟩) ∨
    r.results keep = (r.scan keep).1 :: (r.scan keep).2.results keep ∧
      (r.scan keep).2.stop = r.stop := by
  match r with
  | ⟨p, []⟩ =>
    left
    constructor
    · show scanFrom keep p [] = []
      rw [scanFrom]
    · rw [scan]
      rfl
  | ⟨p, c :: cs⟩ =>
    have hresults : results keep ⟨p, c :: cs⟩ = ((lexeme c cs).result? keep p).toList ++
        results keep ⟨p.afterAll (lexeme c cs).text, (lexeme c cs).rest⟩ :=
      scanFrom_cons keep p c cs
    have hstop : stop ⟨p.afterAll (lexeme c cs).text, (lexeme c cs).rest⟩ =
        stop ⟨p, c :: cs⟩ := by
      unfold stop
      rw [← Position.afterAll_append, lexeme_append]
    rw [scan]
    cases hcut : (lexeme c cs).result? keep p with
    | some result =>
      right
      rw [hcut] at hresults
      exact ⟨hresults, hstop⟩
    | none =>
      -- a piece without a result: the scan goes on behind it
      rw [hcut, Option.toList_none, List.nil_append] at hresults
      have hbehind := scan_cases keep ⟨p.afterAll (lexeme c cs).text, (lexeme c cs).rest⟩
      rw [hstop, ← hresults] at hbehind
      exact hbehind
termination_by r.text.length
decreasing_by exact Nat.lt_succ_of_le (lexeme_rest_le c cs)

end Remainder

/-- Some results, and behind them the end of the text for ever. -/
def endless (rs : List Result) (stop : Position) (k : Nat) : Result :=
  rs[k]?.getD (.ok (.endOfFile stop))

theorem endless_nil (stop : Position) (k : Nat) : endless [] stop k = .ok (.endOfFile stop) :=
  rfl

theorem endless_of_length_le {rs : List Result} {stop : Position} {k : Nat}
    (h : rs.length ≤ k) : endless rs stop k = .ok (.endOfFile stop) := by
  rw [endless, List.getElem?_eq_none h, Option.getD_none]

theorem map_endless (rs : List Result) (stop : Position) :
    (List.range rs.length).map (endless rs stop) = rs := by
  apply List.ext_getElem
  · rw [List.length_map, List.length_range]
  · intro k hk hk'
    rw [List.getElem_map, List.getElem_range, endless, List.getElem?_eq_getElem hk',
      Option.getD_some]

/-- Scanning again and again gives the results in order, and then the end of the text for ever. -/
theorem Remainder.nth_eq (keep : Bool) (k : Nat) (r : Remainder) :
    r.nth keep k = endless (r.results keep) r.stop k := by
  induction k generalizing r with
  | zero =>
    rw [nth]
    rcases r.scan_cases keep with ⟨hresults, hscan⟩ | ⟨hresults, -⟩
    · rw [hresults, hscan, endless_nil]
    · rw [hresults]
      rfl
  | succ k ih =>
    rw [nth, ih]
    rcases r.scan_cases keep with ⟨hresults, hscan⟩ | ⟨hresults, hstop⟩
    · have hend : (⟨r.stop, []⟩ : Remainder).results keep = [] := by
        unfold results
        rw [scanFrom]
      rw [hresults, hscan, hend, endless_nil, endless_nil]
      rfl
    · rw [hresults, hstop]
      rfl

/-! ### What is handed out -/

/-- The results of scanning a text again and again. -/
def scans (text : String) (keep : Bool) (k : Nat) : Result := (Remainder.ofText text).nth keep k

theorem scans_eq (text : String) (keep : Bool) :
    scans text keep = endless (scan text keep) (endPosition text) := by
  funext k
  exact Remainder.nth_eq keep k (Remainder.ofText text)

/-- The result is the end of the text. -/
def IsEnd (r : Result) : Prop := ∃ t, r = .ok t ∧ t.kind = .endOfFile

theorem not_isEnd_error (e : Located LexError) : ¬ IsEnd (.error e) := by
  rintro ⟨t, ht, -⟩
  cases ht

theorem isEnd_ok {t : Token} : IsEnd (.ok t) ↔ t.kind = .endOfFile := by
  constructor
  · rintro ⟨u, hu, hkind⟩
    cases hu
    exact hkind
  · intro hkind
    exact ⟨t, rfl, hkind⟩

/-- Only behind the results of a text is its end. -/
theorem scan_not_isEnd {text : String} {keep : Bool} {r : Result} (h : r ∈ scan text keep) :
    ¬ IsEnd r := by
  rintro ⟨t, rfl, hkind⟩
  exact kind_ne_endOfFile h hkind

/-- The last token among the first so many results. -/
def lastToken (results : Nat → Result) : Nat → Option Token
  | 0 => none
  | k + 1 =>
    match results k with
    | .ok t => some t
    | .error _ => lastToken results k

end Token

/-! ### Calls and their answers -/

/-- The calls of a tokenizer: for the next token, for the token shown last, and for the next token
up to the end of the text. -/
inductive Tokenizer.Call where
  | next | current | item
  deriving DecidableEq, Repr

/-- How many results have been handed out, and whether they are over for `item`. -/
structure Tokenizer.Progress where
  handed : Nat
  ended : Bool

open Token (IsEnd lastToken endless)

namespace Tokenizer

/-- The answer to a call, where there is one, and the tokenizer behind it. -/
def answer (t : Tokenizer) : Call → Option Result × Tokenizer
  | .next => (some t.nextToken.1, t.nextToken.2)
  | .current => (some t.currentToken.1, t.currentToken.2)
  | .item => t.next?

/-- The answers to some calls in order, and the tokenizer behind them. -/
def answers (t : Tokenizer) : List Call → List (Option Result) × Tokenizer
  | [] => ([], t)
  | call :: calls =>
    let (a, t') := t.answer call
    let (as, t'') := t'.answers calls
    (a :: as, t'')

/-- What a call is answered with, and what has been handed out then. -/
inductive Answers (results : Nat → Result) : Progress → Call → Option Result → Progress → Prop
  /-- The next result, whatever it is. -/
  | next {k : Nat} {ended : Bool} :
    Answers results ⟨k, ended⟩ .next (some (results k)) ⟨k + 1, ended⟩
  /-- The next result where there has been no token. -/
  | first {k : Nat} {ended : Bool} (h : lastToken results k = none) :
    Answers results ⟨k, ended⟩ .current (some (results k)) ⟨k + 1, ended⟩
  /-- The last token, and nothing is taken. -/
  | again {k : Nat} {ended : Bool} {t : Token} (h : lastToken results k = some t) :
    Answers results ⟨k, ended⟩ .current (some (.ok t)) ⟨k, ended⟩
  | item {k : Nat} (h : ¬ IsEnd (results k)) :
    Answers results ⟨k, false⟩ .item (some (results k)) ⟨k + 1, false⟩
  /-- The end of the text is taken, but not handed out. -/
  | ends {k : Nat} (h : IsEnd (results k)) : Answers results ⟨k, false⟩ .item none ⟨k + 1, true⟩
  | ended {k : Nat} : Answers results ⟨k, true⟩ .item none ⟨k, true⟩

/-- What some calls in order are answered with. -/
inductive AnswersAll (results : Nat → Result) :
    Progress → List Call → List (Option Result) → Progress → Prop
  | nil {p : Progress} : AnswersAll results p [] [] p
  | cons {p p' p'' : Progress} {call : Call} {a : Option Result} {calls : List Call}
    {as : List (Option Result)} (h : Answers results p call a p')
    (hs : AnswersAll results p' calls as p'') : AnswersAll results p (call :: calls) (a :: as) p''

/-- The tokenizer has handed out so many of these results. -/
structure HandedOut (rs : List Result) (stop : Position) (t : Tokenizer) (p : Progress) : Prop where
  pending : t.pending = rs.drop p.handed
  ending : t.stop = stop
  current : t.current = lastToken (endless rs stop) p.handed
  finished : t.finished = p.ended

variable {rs : List Result} {stop : Position} {t : Tokenizer} {p : Progress}

theorem handedOut_ofText (text : String) (keep : Bool) :
    HandedOut (Token.scan text keep) (Token.endPosition text) (ofText text keep) ⟨0, false⟩ :=
  ⟨rfl, rfl, rfl, rfl⟩

/-- Each call for the next token takes one result. -/
theorem HandedOut.nextToken (h : HandedOut rs stop t p) :
    t.nextToken.1 = endless rs stop p.handed ∧
      HandedOut rs stop t.nextToken.2 ⟨p.handed + 1, p.ended⟩ := by
  obtain ⟨k, ended⟩ := p
  obtain ⟨pending, stop', current, finished⟩ := t
  obtain ⟨hpending, hstop, hcurrent, hfinished⟩ := h
  dsimp only at hpending hstop hcurrent hfinished ⊢
  subst hpending hstop hcurrent hfinished
  have hresult : endless rs stop' k = (rs.drop k).head?.getD (.ok (.endOfFile stop')) := by
    rw [endless, List.head?_drop]
  have htail : rs.drop (k + 1) = (rs.drop k).tail := List.tail_drop.symm
  rw [hresult]
  -- whether there is a result left, and whether that is a token
  refine ⟨?_, ?_, ?_, ?_, ?_⟩
  · rcases rs.drop k with _ | ⟨_ | _, rest⟩ <;> rfl
  · rw [htail]
    rcases rs.drop k with _ | ⟨_ | _, rest⟩ <;> rfl
  · rcases rs.drop k with _ | ⟨_ | _, rest⟩ <;> rfl
  · rw [lastToken, hresult]
    rcases rs.drop k with _ | ⟨_ | _, rest⟩ <;> rfl
  · rcases rs.drop k with _ | ⟨_ | _, rest⟩ <;> rfl

/-- Each call is answered from the results in order. -/
theorem HandedOut.answer (h : HandedOut rs stop t p) (call : Call) :
    ∃ p', Answers (endless rs stop) p call (t.answer call).1 p' ∧
      HandedOut rs stop (t.answer call).2 p' := by
  obtain ⟨hresult, hnext⟩ := h.nextToken
  obtain ⟨k, ended⟩ := p
  cases call with
  | next =>
    refine ⟨⟨k + 1, ended⟩, ?_, hnext⟩
    show Answers _ _ _ (some t.nextToken.1) _
    rw [hresult]
    exact .next
  | current =>
    show ∃ p', Answers _ _ _ (some t.currentToken.1) p' ∧ HandedOut rs stop t.currentToken.2 p'
    have hcurrent := h.current
    unfold currentToken
    -- the first call of this kind fetches a token, and later ones show it again
    cases hlast : t.current with
    | none =>
      rw [hlast] at hcurrent
      refine ⟨⟨k + 1, ended⟩, ?_, hnext⟩
      rw [hresult]
      exact .first hcurrent.symm
    | some token =>
      rw [hlast] at hcurrent
      exact ⟨⟨k, ended⟩, .again hcurrent.symm, h⟩
  | item =>
    show ∃ p', Answers _ _ _ t.next?.1 p' ∧ HandedOut rs stop t.next?.2 p'
    have hfinished : t.finished = ended := h.finished
    -- behind the end of the text there are no more items
    cases ended with
    | true =>
      rw [next?, if_pos hfinished]
      exact ⟨⟨k, true⟩, .ended, h⟩
    | false =>
      rw [next?, if_neg (Bool.eq_false_iff.1 hfinished)]
      generalize t.nextToken = step at hresult hnext
      obtain ⟨r, t'⟩ := step
      dsimp only at hresult hnext
      subst hresult
      cases hr : endless rs stop k with
      | error e =>
        refine ⟨⟨k + 1, false⟩, ?_, hnext⟩
        have hitem := Answers.item (hr ▸ Token.not_isEnd_error e)
        rwa [hr] at hitem
      | ok token =>
        dsimp only
        by_cases hkind : token.kind = .endOfFile
        · rw [if_pos hkind]
          refine ⟨⟨k + 1, true⟩, .ends (hr ▸ Token.isEnd_ok.2 hkind), ?_⟩
          exact ⟨hnext.pending, hnext.ending, hnext.current, rfl⟩
        · rw [if_neg hkind]
          refine ⟨⟨k + 1, false⟩, ?_, hnext⟩
          have hitem : Answers (endless rs stop) ⟨k, false⟩ .item (some (endless rs stop k))
            ⟨k + 1, false⟩ := .item (hr ▸ mt Token.isEnd_ok.1 hkind)
          rwa [hr] at hitem

/-- So are all calls, and the token shown last is remembered. -/
theorem HandedOut.answers (h : HandedOut rs stop t p) (calls : List Call) :
    ∃ p', AnswersAll (endless rs stop) p calls (t.answers calls).1 p' ∧
      HandedOut rs stop (t.answers calls).2 p' := by
  induction calls generalizing t p with
  | nil => exact ⟨p, .nil, h⟩
  | cons call calls ih =>
    obtain ⟨p₁, hanswer, h₁⟩ := h.answer call
    obtain ⟨p₂, hanswers, h₂⟩ := ih h₁
    exact ⟨p₂, .cons hanswer hanswers, h₂⟩

/-! ### Everything at once -/

theorem next?_nil (stop : Position) (current : Option Token) :
    next? ⟨[], stop, current, false⟩ = (none, ⟨[], stop, some (.endOfFile stop), true⟩) := rfl

/-- The next result is handed out unless it is the end of the text. -/
theorem next?_cons {r : Result} (rest : List Result) (stop : Position) (current : Option Token)
    (h : ¬ IsEnd r) :
    ∃ current', next? ⟨r :: rest, stop, current, false⟩ =
      (some r, ⟨rest, stop, current', false⟩) := by
  cases r with
  | error e => exact ⟨current, rfl⟩
  | ok token =>
    refine ⟨some token, ?_⟩
    rw [next?, if_neg Bool.false_ne_true]
    exact if_neg (mt Token.isEnd_ok.2 h)

/-- A result that is handed out is no longer pending. -/
theorem next?_lt {t t' : Tokenizer} {r : Result} (h : t.next? = (some r, t')) :
    t'.pending.length < t.pending.length := by
  obtain ⟨pending, stop, current, finished⟩ := t
  unfold next? at h
  split at h
  · cases h
  · cases pending with
    | nil => cases h
    | cons r rest =>
      cases r with
      | error e =>
        cases h
        exact Nat.lt_succ_self _
      | ok token =>
        dsimp only [nextToken] at h
        split at h
        · cases h
        · cases h
          exact Nat.lt_succ_self _

/-- The errors among all that is still handed out. -/
def remainingErrors (t : Tokenizer) : List (Located LexError) :=
  match _ : t.next? with
  | (none, _) => []
  | (some (.error e), t') => e :: t'.remainingErrors
  | (some (.ok _), t') => t'.remainingErrors
termination_by t.pending.length
decreasing_by all_goals exact next?_lt ‹_›

/-- Takes everything, behind some tokens taken before: all tokens, or from the first error on only
the errors. -/
def exhaust (ts : List Token) (t : Tokenizer) : Except (List (Located LexError)) (List Token) :=
  match _ : t.next? with
  | (none, _) => .ok ts
  | (some (.error e), t') => .error (e :: t'.remainingErrors)
  | (some (.ok token), t') => exhaust (ts ++ [token]) t'
termination_by t.pending.length
decreasing_by exact next?_lt ‹_›

/-- The tokens if there are no errors, else the errors. -/
def outcome (rs : List Result) : Except (List (Located LexError)) (List Token) :=
  match Token.errors rs with
  | [] => .ok (Token.tokens rs)
  | es => .error es

section

variable {t' : Tokenizer} {r : Result}

theorem remainingErrors_none (h : t.next? = (none, t')) : t.remainingErrors = [] := by
  rw [remainingErrors]
  split <;> rename_i heq <;> rw [h] at heq <;> cases heq

theorem remainingErrors_some (h : t.next? = (some r, t')) :
    t.remainingErrors = Token.errors [r] ++ t'.remainingErrors := by
  rw [remainingErrors]
  split <;> rename_i heq <;> rw [h] at heq <;> cases heq <;> rfl

theorem exhaust_none (h : t.next? = (none, t')) (ts : List Token) : t.exhaust ts = .ok ts := by
  rw [exhaust]
  split <;> rename_i heq <;> rw [h] at heq <;> cases heq

theorem exhaust_some (h : t.next? = (some r, t')) (ts : List Token) :
    t.exhaust ts =
      match r with
      | .ok token => t'.exhaust (ts ++ [token])
      | .error e => .error (e :: t'.remainingErrors) := by
  rw [exhaust]
  split <;> rename_i heq <;> rw [h] at heq <;> cases heq <;> rfl

end

theorem remainingErrors_eq (hrs : ∀ r ∈ rs, ¬ IsEnd r) (stop : Position)
    (current : Option Token) :
    remainingErrors ⟨rs, stop, current, false⟩ = Token.errors rs := by
  induction rs generalizing current with
  | nil => exact remainingErrors_none (next?_nil stop current)
  | cons r rest ih =>
    obtain ⟨hr, hrest⟩ := List.forall_mem_cons.1 hrs
    obtain ⟨current', hnext⟩ := next?_cons rest stop current hr
    calc remainingErrors ⟨r :: rest, stop, current, false⟩
      _ = Token.errors [r] ++ remainingErrors ⟨rest, stop, current', false⟩ :=
        remainingErrors_some hnext
      _ = Token.errors [r] ++ Token.errors rest := by rw [ih hrest]
      _ = Token.errors (r :: rest) := by
        unfold Token.errors
        rw [← List.filterMap_append, List.singleton_append]

/-- Behind a token there is one token more, and behind an error only errors count. -/
theorem outcome_cons (r : Result) (rest : List Result) (ts : List Token) :
    (outcome (r :: rest)).map (ts ++ ·) =
      match r with
      | .ok token => (outcome rest).map (ts ++ [token] ++ ·)
      | .error e => .error (e :: Token.errors rest) := by
  cases r with
  | error e => rfl
  | ok token =>
    have herrors : Token.errors (.ok token :: rest) = Token.errors rest := rfl
    have htokens : Token.tokens (.ok token :: rest) = token :: Token.tokens rest := rfl
    unfold outcome
    rw [herrors, htokens]
    cases Token.errors rest with
    | nil =>
      show Except.ok (ts ++ token :: Token.tokens rest) =
        Except.ok (ts ++ [token] ++ Token.tokens rest)
      rw [List.append_assoc, List.singleton_append]
    | cons e es => rfl

theorem exhaust_eq (hrs : ∀ r ∈ rs, ¬ IsEnd r) (stop : Position) (current : Option Token)
    (ts : List Token) :
    exhaust ts ⟨rs, stop, current, false⟩ = (outcome rs).map (ts ++ ·) := by
  induction rs generalizing current ts with
  | nil =>
    rw [exhaust_none (next?_nil stop current)]
    show Except.ok ts = Except.ok (ts ++ [])
    rw [List.append_nil]
  | cons r rest ih =>
    obtain ⟨hr, hrest⟩ := List.forall_mem_cons.1 hrs
    obtain ⟨current', hnext⟩ := next?_cons rest stop current hr
    rw [exhaust_some hnext, outcome_cons]
    cases r with
    | error e =>
      dsimp only
      rw [remainingErrors_eq hrest]
    | ok token => exact ih hrest current' (ts ++ [token])

/-- The calls of a tokenizer may be mixed in any order. A call for the next token takes the next
result of scanning the text again and again, and so does a call for items up to the end of the text,
which it does not hand out, and then no more. The token shown last is shown again without taking
anything, and an error does not replace it; where there has been no token, the next result is taken.
Taking everything from a fresh tokenizer gives the tokens up to the end of the text if there is no
error among the results, and else all the errors; this is what cutting all of the text gives. -/
theorem calls_interleaved (text : String) (keep : Bool) :
    (∀ calls, ∃ p,
      AnswersAll (Token.scans text keep) ⟨0, false⟩ calls ((ofText text keep).answers calls).1 p ∧
      ((ofText text keep).answers calls).2.current =
        lastToken (Token.scans text keep) p.handed) ∧
    ∃ n, (∀ k < n, ¬ IsEnd (Token.scans text keep k)) ∧
      (∀ k, n ≤ k → Token.scans text keep k = .ok (.endOfFile (Token.endPosition text))) ∧
      (ofText text keep).exhaust [] = outcome ((List.range n).map (Token.scans text keep)) ∧
      Token.scanAll text keep = (ofText text keep).exhaust [] := by
  rw [Token.scans_eq]
  constructor
  · intro calls
    obtain ⟨p, hanswers, hp⟩ := (handedOut_ofText text keep).answers calls
    exact ⟨p, hanswers, hp.current⟩
  · have hrs : ∀ r ∈ Token.scan text keep, ¬ IsEnd r := fun r => Token.scan_not_isEnd
    have hexhaust : (ofText text keep).exhaust [] = outcome (Token.scan text keep) := by
      have hall := exhaust_eq hrs (Token.endPosition text) none []
      cases houtcome : outcome (Token.scan text keep) with
      | error es => rwa [houtcome] at hall
      | ok ts => rwa [houtcome] at hall
    refine ⟨(Token.scan text keep).length, ?_, ?_, ?_, hexhaust.symm⟩
    · intro k hk
      rw [endless, List.getElem?_eq_getElem hk, Option.getD_some]
      exact hrs _ (List.getElem_mem hk)
    · intro k hk
      exact Token.endless_of_length_le hk
    · rw [Token.map_endless, hexhaust]

end Tokenizer

end MiniPascal
