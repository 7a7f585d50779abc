import MiniPascal.Proofs.Reading.Scan
import MiniPascal.Proofs.Token.Acceptance

/-! What a token is follows from its text. -/

namespace MiniPascal.Token

open State

variable {s : State} {c : Char} {cs w v rest more : List Char} {kind : Kind} {literal : Literal}
  {cut : Cut} {verdict : Verdict}

/-- All but the state behind a point look at the read text only. -/
theorem accept_nil (hstart : s ≠ .start) (hdot : s ≠ .integerDot)
    (h : accept s w rest = some cut) :
    cut.text = w ∧ accept s w [] = some ⟨cut.verdict, w, []⟩ := by
  cases s with
  | start => exact absurd rfl hstart
  | integerDot => exact absurd rfl hdot
  | slash | operator | less | dot | doubleDot | symbol =>
    obtain ⟨x, hx, rfl⟩ := Option.map_eq_some_iff.1 h
    exact ⟨rfl, by rw [accept, hx]; rfl⟩
  | _ =>
    cases h
    exact ⟨rfl, rfl⟩

theorem accept_alone (hrun : start.run w = some s)
    (h : accept s w rest = some ⟨.token kind literal, v, more⟩) :
    ∃ t, start.run v = some t ∧ accept t v [] = some ⟨.token kind literal, v, []⟩ := by
  by_cases hdot : s = .integerDot
  · subst hdot
    obtain ⟨ds, hds, p, hp, rfl⟩ := Language.mem_mul.1 (run_start.1 hrun)
    obtain rfl : p = ['.'] := hp
    simp only [accept, List.dropLast_concat, Option.some.injEq, Cut.mk.injEq] at h
    obtain ⟨hv, rfl, -⟩ := h
    exact ⟨.integer, run_start.2 hds, by rw [accept, hv]⟩
  · have hstart : s ≠ .start := by
      rintro rfl
      obtain ⟨c, -, hc⟩ := Option.map_eq_some_iff.1 h
      cases hc
    obtain ⟨rfl, hnil⟩ := accept_nil hstart hdot h
    exact ⟨s, hrun, hnil⟩

/-- The kinds that `accept` gives: never the end of the text, and a string only behind a closed
one. -/
theorem accept_kind (h : accept s w rest = some ⟨.token kind literal, v, more⟩) :
    kind ≠ .endOfFile ∧ (kind = .string → s = .strQuote ∧ ∃ x, literal = .string x) := by
  cases s with
  | strQuote =>
    cases h
    simp
  | word =>
    simp only [accept, Option.some.injEq, Cut.mk.injEq, Verdict.token.injEq] at h
    obtain ⟨⟨rfl, -⟩, -⟩ := h
    split <;> simp
  | integer | integerDot | hex | octal | binary =>
    simp only [accept, Token.integer, Option.some.injEq, Cut.mk.injEq] at h
    split at h <;> simp only [Verdict.token.injEq, reduceCtorEq, false_and] at h
    obtain ⟨⟨rfl, -⟩, -⟩ := h
    simp
  | slash | operator | less | dot | doubleDot | symbol =>
    obtain ⟨symbol, -, h⟩ := Option.map_eq_some_iff.1 h
    cases h
    simp
  | fraction | exponentDigits | lineComment | blockCommentEnd =>
    cases h
    simp
  | _ => simp [accept] at h

theorem accept_string (h : accept s w rest = some ⟨.token .string literal, v, more⟩) :
    s = .strQuote ∧ ∃ x, literal = .string x :=
  (accept_kind h).2 rfl

theorem accept_of_verdict (hs : start.Stops (c :: cs) s w rest)
    (h : (lexeme c cs).verdict = verdict) :
    accept s w rest = some ⟨verdict, (lexeme c cs).text, (lexeme c cs).rest⟩ := by
  rw [← h]
  exact accept_eq hs

/-- The end of the text is not cut from it. -/
theorem accept_ne_endOfFile (h : accept s w rest = some ⟨.token kind literal, v, more⟩) :
    kind ≠ .endOfFile :=
  (accept_kind h).1

/-- What the automaton says of the text of the token is the token. -/
def Alone (t : Token) : Prop :=
  ∃ s, start.run t.text.toList = some s ∧
    accept s t.text.toList [] = some ⟨.token t.kind t.literal, t.text.toList, []⟩

theorem alone_of_mem_scanFrom {comments : Bool} {p : Position} {text : List Char} {t : Token}
    (h : .ok t ∈ scanFrom comments p text) : t.Alone := by
  obtain ⟨c, cs, hverdict, htext⟩ := exists_lexeme comments _ _ h
  obtain ⟨s, w, rest, hstops⟩ := exists_stops start (c :: cs)
  have hlist : (lexeme c cs).text = t.text.toList := by rw [htext, String.toList_ofList]
  have haccept := accept_of_verdict hstops hverdict
  rw [hlist] at haccept
  exact accept_alone hstops.run haccept

theorem alone_of_mem_scan (text : String) (comments : Bool) {t : Token}
    (h : .ok t ∈ scan text comments) : t.Alone :=
  alone_of_mem_scanFrom h

/-- No result of a text is its end. -/
theorem kind_ne_endOfFile {text : String} {keep : Bool} {t : Token}
    (h : .ok t ∈ scan text keep) : t.kind ≠ .endOfFile := by
  obtain ⟨s, -, haccept⟩ := alone_of_mem_scan text keep h
  exact accept_ne_endOfFile haccept

/-- Tokens of one text are alike. -/
theorem Alone.eq_of_text {t u : Token} (ht : t.Alone) (hu : u.Alone) (h : t.text = u.text) :
    t.kind = u.kind ∧ t.literal = u.literal := by
  obtain ⟨s, hrun, haccept⟩ := ht
  obtain ⟨s', hrun', haccept'⟩ := hu
  rw [h] at hrun haccept
  obtain rfl : s = s' := Option.some.inj (hrun.symm.trans hrun')
  have hsame := Option.some.inj (haccept.symm.trans haccept')
  simp only [Cut.mk.injEq, Verdict.token.injEq, and_true] at hsame
  exact hsame

/-- The literal of a string is its content. -/
theorem Alone.literal_string {t : Token} (ht : t.Alone) (h : t.kind = .string) :
    t.literal = .string t.value := by
  obtain ⟨s, -, haccept⟩ := ht
  rw [h] at haccept
  obtain ⟨-, x, hx⟩ := accept_string haccept
  rw [value, hx]

theorem scan_of_scanAll {text : String} {comments : Bool} {ts : List Token}
    (h : scanAll text comments = .ok ts) : scan text comments = ts.map .ok := by
  have hrs : ∀ rs : List Result, errors rs = [] → rs = (tokens rs).map .ok := by
    intro rs
    induction rs with
    | nil => exact fun _ => rfl
    | cons r rs ih =>
      cases r with
      | error e => nofun
      | ok t => exact fun h => congrArg (.ok t :: ·) (ih h)
  unfold scanAll at h
  dsimp only at h
  split at h
  · rename_i herrors
    cases h
    exact hrs _ herrors
  · cases h

theorem alone_of_scanAll {text : String} {comments : Bool} {ts : List Token}
    (h : scanAll text comments = .ok ts) : ∀ t ∈ ts, t.Alone := by
  intro t ht
  refine alone_of_mem_scan text comments ?_
  rw [scan_of_scanAll h]
  exact List.mem_map_of_mem ht

end MiniPascal.Token
