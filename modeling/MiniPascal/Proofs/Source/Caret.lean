import MiniPascal.Diagnostic
import MiniPascal.Proofs.Recoding.Located
import MiniPascal.Proofs.Source.Lines

/-! The caret of a report points at what is wrong. -/

namespace MiniPascal

open Token

/-- An error that reading a text as a program ends with, or one of those that cutting it into
lexemes meets. -/
inductive Fails (text : String) : Located String → Prop
  | program {name : String} {e : Located Fault} (h : Program.ofText text name = .error e) :
    Fails text (e.map Fault.message)
  | lexical {keep : Bool} {es : List (Located LexError)} {e : Located LexError}
    (h : scanAll text keep = .error es) (he : e ∈ es) : Fails text (e.map LexError.message)

/-- No tab precedes a position on its line. -/
def Source.Tabless (source : Source) (p : Position) : Prop :=
  ∀ line, source.line? p.line = some line → '\t' ∉ line.toList.take (p.column - 1)

/-- The report of an error quotes a line behind a gutter, and the line below it has a single caret,
under the column of the error. -/
def Diagnostics.Points (d : Diagnostics) (e : Located String) (line : String) : Prop :=
  ∃ above bar caret below,
    d.describe = above ++ String.join ([d.kind ++ ": " ++ e.value,
      " --> " ++ d.sourceName ++ ":" ++ e.position.describe, bar,
      toString e.position.line ++ " | " ++ line, caret].map (· ++ "\n")) ++ below ∧
    ∀ i, caret.toList[i]? = some '^' ↔
      i = (toString e.position.line ++ " | ").length + (e.position.column - 1)

/-- A report shows where an error is found: the caret is below the first character of the lexeme of
a token or of a lexical error, or just behind the line if this is the end of the text. -/
def Diagnostics.Shows (d : Diagnostics) (source : Source) (e : Located String) : Prop :=
  ∃ line, source.line? e.position.line = some line ∧ '\n' ∉ line.toList ∧ d.Points e line ∧
    ((∃ before x w rest, before ++ x :: w ++ rest = source.text.toList ∧
        Position.start.afterAll before = e.position ∧
        (∃ keep, ∃ r ∈ scan source.text keep, positionOf r = e.position ∧ Reports r (x :: w)) ∧
        line.toList[e.position.column - 1]? = some x) ∨
      e.position = endPosition source.text ∧ e.position.column = line.length + 1)

variable {text : String} {source : Source} {p : Position} {e : Located String} {x : Char}
  {before rest w : List Char} {line : String} {d : Diagnostics}

/-- Errors are found at tokens, at lexical errors and at the end of the text. -/
theorem Fails.position (h : Fails text e) :
    e.position = endPosition text ∨ ∃ keep, ∃ r ∈ scan text keep, positionOf r = e.position := by
  cases h with
  | program h =>
    rcases Program.ofText_error_position h with hend | ⟨r, hr, hp⟩
    · exact .inl hend
    · exact .inr ⟨false, r, hr, hp⟩
  | @lexical keep es e h he =>
    apply Or.inr
    have hmem : e ∈ errors (scan text keep) := by
      unfold scanAll at h
      dsimp only at h
      split at h
      · cases h
      · cases h
        exact he
    obtain ⟨r, hr, hsome⟩ := List.mem_filterMap.1 hmem
    cases r with
    | ok t => cases hsome
    | error e' =>
      obtain rfl := Option.some.inj hsome
      exact ⟨keep, _, hr, rfl⟩

/-! ### The quoted line -/

/-- A tab in front of a place of a line would stand in front of its column too. -/
theorem Source.Tabless.not_mem {last more : List Char} (htab : source.Tabless p)
    (hline : source.line? p.line = some (String.ofList (last ++ more)))
    (hcolumn : 1 + last.length ≤ p.column) : '\t' ∉ last := by
  intro hmem
  have hnot := htab _ hline
  rw [String.toList_ofList, List.take_append, List.take_of_length_le (by omega)] at hnot
  exact hnot (List.mem_append_left _ hmem)

/-- A character that is no blank is found in the line and at the column of its position. -/
theorem Source.line?_character (htext : source.text.toList = before ++ x :: rest)
    (hx : isBlank x = false) (hp : Position.start.afterAll before = p) (htab : source.Tabless p) :
    ∃ line, source.line? p.line = some line ∧ '\n' ∉ line.toList ∧
      line.toList[p.column - 1]? = some x := by
  obtain ⟨above, last, rfl, habove, hlast⟩ := exists_line before
  obtain ⟨hline, hle, hcolumn⟩ := Position.afterAll_line habove hlast
  rw [hp] at hline hle hcolumn
  rw [List.append_assoc] at htext
  obtain ⟨more, lines, hlines⟩ := splitLines_open hlast hx rest
  have hquoted := line?_eq source htext habove 0
  rw [hlines, Nat.add_zero, ← hline] at hquoted
  have hnewline := not_mem_splitLines (last ++ x :: rest)
  rw [hlines] at hnewline
  have hindex : p.column - 1 = last.length := by
    rw [hcolumn (htab.not_mem hquoted hle)]
    omega
  refine ⟨_, hquoted, ?_, ?_⟩
  · rw [String.toList_ofList]
    exact hnewline _ List.mem_cons_self
  · rw [String.toList_ofList, hindex, List.getElem?_append_right (Nat.le_refl _), Nat.sub_self]
    rfl

/-- The end of a text is behind all lines or just behind the last one. -/
theorem Source.line?_end (htab : source.Tabless (endPosition source.text)) :
    (∀ n, (endPosition source.text).line ≤ n → source.line? n = none) ∨
      ∃ line, source.line? (endPosition source.text).line = some line ∧ '\n' ∉ line.toList ∧
        (endPosition source.text).column = line.length + 1 := by
  obtain ⟨above, last, htext, habove, hlast⟩ := exists_line source.text.toList
  obtain ⟨hline, hle, hcolumn⟩ := Position.afterAll_line habove hlast
  have hend : endPosition source.text = Position.start.afterAll (above ++ last) := by
    rw [endPosition, htext]
  rw [← hend] at hline hle hcolumn
  by_cases hnil : last = []
  · apply Or.inl
    intro n hn
    obtain ⟨k, rfl⟩ := Nat.exists_eq_add_of_le hn
    rw [hline, line?_eq source htext habove k, hnil]
    rfl
  · apply Or.inr
    have hquoted := line?_eq source htext habove 0
    rw [splitLines_last hlast hnil, Nat.add_zero, ← hline] at hquoted
    have hwhole : last ++ [] = last := List.append_nil last
    have hcolumn := hcolumn (htab.not_mem (hwhole ▸ hquoted) hle)
    refine ⟨_, hquoted, ?_, ?_⟩
    · rwa [String.toList_ofList]
    · rw [String.length_ofList, hcolumn, Nat.add_comm]

/-! ### The report -/

theorem getElem?_caret (hw : '^' ∉ w) (i : Nat) : (w ++ ['^'])[i]? = some '^' ↔ i = w.length := by
  constructor
  · intro h
    by_cases hlt : i < w.length
    · rw [List.getElem?_append_left hlt] at h
      exact absurd (List.mem_of_getElem? h) hw
    · rw [List.getElem?_append_right (Nat.le_of_not_lt hlt)] at h
      obtain ⟨hone, -⟩ := List.getElem?_eq_some_iff.1 h
      rw [List.length_singleton] at hone
      omega
  · intro h
    rw [h]
    exact List.getElem?_concat_length

/-- A report quotes the line of each of its errors. -/
theorem Diagnostics.points (hsource : d.source = some source) (he : e ∈ d.errors)
    (hline : source.line? e.position.line = some line) : d.Points e line := by
  obtain ⟨es, es', herrors⟩ := List.append_of_mem he
  have hsome : ¬ d.errors.isEmpty = true := by
    rw [List.isEmpty_iff]
    exact List.ne_nil_of_mem he
  have hquoted : (d.source.bind (·.line? e.position.line)).elim [] (quotation e.position) =
      quotation e.position line := by
    rw [hsource, Option.bind_some, hline]
    rfl
  let bar := blanks (toString e.position.line).length ++ " |"
  let below := blanks (toString e.position.line).length ++ " | " ++ blanks (e.position.column - 1)
  have hlines : d.errorLines e = [d.kind ++ ": " ++ e.value,
      " --> " ++ d.sourceName ++ ":" ++ e.position.describe, bar,
      toString e.position.line ++ " | " ++ line, below ++ "^"] ++ [""] := by
    rw [errorLines, hquoted]
    rfl
  have hblanks : ∀ n, (blanks n).toList = List.replicate n ' ' := fun n => String.toList_ofList
  refine ⟨String.join ((es.flatMap d.errorLines).map (· ++ "\n")), bar, below ++ "^",
    String.join (([""] ++ es'.flatMap d.errorLines ++ [d.summary]).map (· ++ "\n")), ?_, ?_⟩
  · rw [describe, lines, if_neg hsome, herrors, List.flatMap_append, List.flatMap_cons, hlines]
    simp only [List.map_append, String.join_append, String.append_assoc]
  · intro i
    -- the gutter is as wide below as it is in front of the line
    have hlength : (toString e.position.line ++ " | ").length + (e.position.column - 1) =
        below.toList.length := by
      have hbar : " | ".length = 3 := rfl
      simp [below, hblanks]
      omega
    rw [hlength, String.toList_append]
    apply getElem?_caret
    simp [below, hblanks]

/-- Without a tab in front of it on its line, an error is shown where it is found, unless that is
the end of the text behind all its lines. -/
theorem Diagnostics.caret_points (h : Fails source.text e) (hsource : d.source = some source)
    (he : e ∈ d.errors) (htab : source.Tabless e.position) :
    (e.position = endPosition source.text ∧
      ∀ n, e.position.line ≤ n → source.line? n = none) ∨ d.Shows source e := by
  rcases h.position with hend | ⟨keep, r, hr, hp⟩
  · rw [hend] at htab
    rcases Source.line?_end htab with hnone | ⟨line, hline, hnewline, hcolumn⟩
    · rw [← hend] at hnone
      exact .inl ⟨hend, hnone⟩
    · rw [← hend] at hline hcolumn
      exact .inr ⟨line, hline, hnewline, points hsource he hline, .inr ⟨hend, hcolumn⟩⟩
  · apply Or.inr
    obtain ⟨before, x, w, rest, htext, hx, hreports, hplace⟩ :=
      (laid_scan source.text keep).exists_position r hr
    rw [hp, List.nil_append] at hplace
    have hsplit : source.text.toList = before ++ x :: (w ++ rest) := by
      rw [← htext, List.append_assoc]
      rfl
    obtain ⟨line, hline, hnewline, hcharacter⟩ :=
      Source.line?_character hsplit hx hplace.symm htab
    refine ⟨line, hline, hnewline, points hsource he hline, .inl ?_⟩
    exact ⟨before, x, w, rest, htext, hplace.symm, ⟨keep, r, hr, hp, hreports⟩, hcharacter⟩

/-- A symbol that nothing starts with, on the second line and behind a letter of two bytes. -/
theorem Diagnostics.caret_points_unknown :
    ∃ source e d, source = (⟨"t", "a\r\n 'ü' ¿b"⟩ : Source) ∧ e.position = ⟨2, 6⟩ ∧
      d = (⟨"error", some source, [e]⟩ : Diagnostics) ∧ Fails source.text e ∧
      source.Tabless e.position ∧
      ((e.position = endPosition source.text ∧
        ∀ n, e.position.line ≤ n → source.line? n = none) ∨ d.Shows source e) := by
  have hscan : scanAll "a\r\n 'ü' ¿b" false = .error [⟨⟨2, 6⟩, .unknownSymbol '¿'⟩] := by cbv
  have hfails := Fails.lexical hscan List.mem_cons_self
  have htab : Source.Tabless ⟨"t", "a\r\n 'ü' ¿b"⟩ ⟨2, 6⟩ := by
    intro line hline
    have hquoted : Source.line? ⟨"t", "a\r\n 'ü' ¿b"⟩ 2 = some " 'ü' ¿b" := by cbv
    obtain rfl := Option.some.inj (hquoted.symm.trans hline)
    decide
  exact ⟨_, _, _, rfl, rfl, rfl, hfails, htab,
    caret_points hfails rfl List.mem_cons_self htab⟩

end MiniPascal
