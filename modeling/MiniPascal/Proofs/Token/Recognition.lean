import MiniPascal.Proofs.Token.Acceptance
import MiniPascal.Token.Stream

/-! `Yields` says in terms of the lexical grammar what is read where the longest beginning of a
lexeme is known. -/

namespace MiniPascal.Token

open Computability State

/-- The base of an integer and its digits. -/
def numeral : List Char → Nat × List Char
  | '$' :: ds => (16, ds)
  | '&' :: ds => (8, ds)
  | '%' :: ds => (2, ds)
  | ds => (10, ds)

/-- What the text `w ++ rest` yields at a position, when `w` is the longest beginning of a lexeme,
and what of the text is left. -/
inductive Yields (keep : Bool) (p : Position) :
    List Char → List Char → Option Result → List Char → Prop
  | keyword {w rest : List Char} {k : Keyword} (hw : w ∈ words)
    (hk : String.ofList (w.map Char.toLower) = k.spelling) :
    Yields keep p w rest (some (.ok ⟨p, .keyword k, String.ofList w, .plain⟩)) rest
  | identifier {w rest : List Char} (hw : w ∈ words)
    (hk : ∀ k : Keyword, String.ofList (w.map Char.toLower) ≠ k.spelling) :
    Yields keep p w rest (some (.ok ⟨p, .identifier, String.ofList w, .plain⟩)) rest
  | integer {w ds rest : List Char} {base : Nat} (hw : w ∈ integers) (hn : numeral w = (base, ds))
    (hlt : ofDigits base ds < 2 ^ 64) :
    Yields keep p w rest
      (some (.ok ⟨p, .integer, String.ofList w, .integer (ofDigits base ds)⟩)) rest
  | overflow {w ds rest : List Char} {base : Nat} (hw : w ∈ integers) (hn : numeral w = (base, ds))
    (hle : 2 ^ 64 ≤ ofDigits base ds) :
    Yields keep p w rest (some (.error ⟨p, .integerOverflow (String.ofList ds)⟩)) rest
  | fraction {w rest : List Char} (hw : w ∈ fractions) :
    Yields keep p w rest
      (some (.ok ⟨p, .double, String.ofList w, .fraction (decimal w)⟩)) rest
  | scientific {w rest : List Char} (hw : w ∈ scientifics) :
    Yields keep p w rest
      (some (.ok ⟨p, .double, String.ofList w, .scientific (decimal w)⟩)) rest
  | string {v rest : List Char} (hv : v ∈ quotes) :
    Yields keep p ('\'' :: v ++ ['\'']) rest
      (some (.ok ⟨p, .string, String.ofList ('\'' :: v ++ ['\'']),
        .string (String.ofList (unquote v))⟩)) rest
  | comment {w rest : List Char} (hw : w ∈ comments) :
    Yields keep p w rest
      (if keep then some (.ok ⟨p, .comment, String.ofList w, .plain⟩) else none) rest
  | symbol {rest : List Char} (s : Symbol) :
    Yields keep p s.chars rest
      (some (.ok ⟨p, .symbol s, String.ofList s.chars, .plain⟩)) rest
  /-- Digits in front of a point that no digit follows: the point is not read. -/
  | point {ds rest : List Char} (hds : ds ∈ many Char.isDigit) (hlt : ofDigits 10 ds < 2 ^ 64) :
    Yields keep p (ds ++ ['.']) rest
      (some (.ok ⟨p, .integer, String.ofList ds, .integer (ofDigits 10 ds)⟩)) ('.' :: rest)
  | pointOverflow {ds rest : List Char} (hds : ds ∈ many Char.isDigit)
    (hle : 2 ^ 64 ≤ ofDigits 10 ds) :
    Yields keep p (ds ++ ['.']) rest (some (.error ⟨p, .integerOverflow (String.ofList ds)⟩))
      ('.' :: rest)
  /-- Any other number that breaks off. -/
  | malformed {w rest : List Char} (hne : w ≠ []) (hw : w ∉ lexemes)
    (hb : Begins (integers + doubles) w) (hp : w ∉ many Char.isDigit * {['.']}) :
    Yields keep p w rest (some (.error ⟨p, .malformedNumber (String.ofList w)⟩)) rest
  | openString {w rest : List Char} (hne : w ≠ []) (hw : w ∉ lexemes) (hb : Begins strings w) :
    Yields keep p w rest (some (.error ⟨p, .unterminatedString⟩)) rest
  | openComment {w rest : List Char} (hne : w ≠ []) (hw : w ∉ lexemes) (hb : Begins comments w) :
    Yields keep p w rest (some (.error ⟨p, .unterminatedComment⟩)) rest
  | unknown {c : Char} {rest : List Char} :
    Yields keep p [] (c :: rest) (some (.error ⟨p, .unknownSymbol c⟩)) rest

variable {keep : Bool} {p : Position} {s t : State} {c : Char} {cs ds v w rest : List Char}
  {cut : Cut}

/-- No lexeme leads to a state that is not final. -/
theorem not_mem_lexemes (hrun : start.run w = some s) (hs : s.final = false) : w ∉ lexemes := by
  intro hw
  obtain ⟨t, ht, hrun'⟩ := mem_lexemes.1 hw
  rw [hrun] at hrun'
  cases hrun'
  rw [hs] at ht
  cases ht

/-- A text that can go on to a state begins the texts of the state. -/
theorem begins_reads (hrun : start.run w = some s) (hv : s.run v = some t) :
    Begins t.reads w := by
  refine ⟨v, run_start.1 ?_⟩
  rw [run_append, hrun]
  exact hv

theorem not_mem_point (hrun : start.run w = some s) (hs : s ≠ .integerDot) :
    w ∉ many Char.isDigit * {['.']} := by
  intro hw
  have hdot : start.run w = some .integerDot := leads_reads .integerDot w hw
  rw [hrun] at hdot
  exact hs (Option.some.inj hdot)

theorem ofName?_eq_some {n : Name} {k : Keyword} (h : Keyword.ofName? n = some k) :
    n.canonical = k.spelling := by
  have hk := List.find?_some h
  exact (beq_iff_eq.1 hk).symm

theorem ofName?_eq_none {n : Name} (h : Keyword.ofName? n = none) (k : Keyword) :
    n.canonical ≠ k.spelling := by
  have hk := List.find?_eq_none.1 h k k.mem_all
  intro heq
  exact hk (beq_iff_eq.2 heq.symm)

theorem yields_integer {base : Nat} (hw : w ∈ integers) (hn : numeral w = (base, ds)) :
    Yields keep p w rest ((⟨integer base ds, w, rest⟩ : Cut).result? keep p) rest := by
  unfold integer
  dsimp only
  split
  · rename_i hlt
    exact .integer hw hn hlt
  · rename_i hle
    exact .overflow hw hn (Nat.le_of_not_lt hle)

theorem yields_point (hds : ds ∈ many Char.isDigit) :
    Yields keep p (ds ++ ['.']) rest ((⟨integer 10 ds, ds, '.' :: rest⟩ : Cut).result? keep p)
      ('.' :: rest) := by
  unfold integer
  dsimp only
  split
  · rename_i hlt
    exact .point hds hlt
  · rename_i hle
    exact .pointOverflow hds (Nat.le_of_not_lt hle)

theorem numeral_digits (hw : w ∈ many Char.isDigit) : numeral w = (10, w) := by
  have hdigit := (mem_many.1 hw).2
  unfold numeral
  split
  · cases hdigit '$' List.mem_cons_self
  · cases hdigit '&' List.mem_cons_self
  · cases hdigit '%' List.mem_cons_self
  · rfl

theorem canonical_ofList (w : List Char) :
    (⟨String.ofList w⟩ : Name).canonical = String.ofList (w.map Char.toLower) := by
  rw [Name.canonical, String.toList_ofList]

theorem yields_word (hw : w ∈ words) (h : accept .word w rest = some cut) :
    Yields keep p w rest (cut.result? keep p) cut.rest := by
  rw [accept] at h
  split at h
  · rename_i k hk
    cases h
    have hk := ofName?_eq_some hk
    rw [canonical_ofList] at hk
    exact .keyword hw hk
  · rename_i hk
    cases h
    refine .identifier hw fun k => ?_
    rw [← canonical_ofList]
    exact ofName?_eq_none hk k

theorem yields_comment (hw : w ∈ comments) :
    Yields keep p w rest ((⟨.token .comment .plain, w, rest⟩ : Cut).result? keep p) rest := by
  have hresult : Yields keep p w rest
      (if keep then some (.ok ⟨p, .comment, String.ofList w, .plain⟩) else none) rest :=
    .comment hw
  cases keep
  · exact hresult
  · exact hresult

/-- A number that breaks off in a state that is not final. -/
theorem yields_malformed (hrun : start.run w = some s) (hs : s.final = false)
    (hdot : s ≠ .integerDot) (hne : w ≠ []) (hb : Begins (integers + doubles) w) :
    Yields keep p w rest
      ((⟨.failure (.malformedNumber (String.ofList w)), w, rest⟩ : Cut).result? keep p) rest :=
  .malformed hne (not_mem_lexemes hrun hs) hb (not_mem_point hrun hdot)

theorem Begins.mono {l m : Language Char} (h : ∀ v ∈ l, v ∈ m) (hb : Begins l w) :
    Begins m w := by
  obtain ⟨v, hv⟩ := hb
  exact ⟨v, h (w ++ v) hv⟩

theorem yields_of_accept (h : start.Stops (c :: cs) s w rest) (hs : s ≠ .blank)
    (hcut : accept s w rest = some cut) :
    Yields keep p w rest (cut.result? keep p) cut.rest := by
  have hw : w ∈ s.reads := run_start.1 h.run
  have hne : s ≠ .start → w ≠ [] := by
    rintro hstart rfl
    have hrun := h.run
    rw [run_nil] at hrun
    exact hstart (Option.some.inj hrun).symm
  -- one more digit completes a number that breaks off in its exponent
  have hexponent : ∀ t : State, s.run ['0'] = some t → t = .exponentDigits →
      Begins (integers + doubles) w := by
    rintro _ hv rfl
    exact (begins_reads h.run hv).mono fun v hv => .inr (.inr hv)
  cases s with
  | blank => exact absurd rfl hs
  | start =>
    obtain ⟨rfl, rfl, -⟩ := lexeme_at_start h
    cases hcut
    exact .unknown
  | word => exact yields_word hw hcut
  | integer =>
    cases hcut
    exact yields_integer (.inl (.inl (.inl hw))) (numeral_digits hw)
  | integerDot =>
    cases hcut
    obtain ⟨ds, hds, _, rfl, rfl⟩ := Language.mem_mul.1 hw
    rw [List.dropLast_concat]
    exact yields_point hds
  | fraction =>
    cases hcut
    exact .fraction hw
  | exponent =>
    cases hcut
    exact yields_malformed h.run rfl (by decide) (hne (by decide)) (hexponent _ rfl rfl)
  | exponentSign =>
    cases hcut
    exact yields_malformed h.run rfl (by decide) (hne (by decide)) (hexponent _ rfl rfl)
  | exponentDigits =>
    cases hcut
    exact .scientific hw
  | hexPrefix =>
    cases hcut
    have hb : Begins State.hex.reads w := begins_reads (v := ['0']) h.run rfl
    exact yields_malformed h.run rfl (by decide) (hne (by decide))
      (hb.mono fun v hv => .inl (.inl (.inl (.inr hv))))
  | octalPrefix =>
    cases hcut
    have hb : Begins State.octal.reads w := begins_reads (v := ['0']) h.run rfl
    exact yields_malformed h.run rfl (by decide) (hne (by decide))
      (hb.mono fun v hv => .inl (.inl (.inr hv)))
  | binaryPrefix =>
    cases hcut
    have hb : Begins State.binary.reads w := begins_reads (v := ['0']) h.run rfl
    exact yields_malformed h.run rfl (by decide) (hne (by decide))
      (hb.mono fun v hv => .inl (.inr hv))
  | hex =>
    cases hcut
    obtain ⟨_, rfl, ds, hds, rfl⟩ := Language.mem_mul.1 hw
    exact yields_integer (.inl (.inl (.inr hw))) rfl
  | octal =>
    cases hcut
    obtain ⟨_, rfl, ds, hds, rfl⟩ := Language.mem_mul.1 hw
    exact yields_integer (.inl (.inr hw)) rfl
  | binary =>
    cases hcut
    obtain ⟨_, rfl, ds, hds, rfl⟩ := Language.mem_mul.1 hw
    exact yields_integer (.inr hw) rfl
  | str =>
    cases hcut
    exact .openString (hne (by decide)) (not_mem_lexemes h.run rfl)
      (begins_reads (t := .strQuote) (v := ['\'']) h.run rfl)
  | strQuote =>
    cases hcut
    obtain ⟨a, ha, _, rfl, rfl⟩ := Language.mem_mul.1 hw
    obtain ⟨_, rfl, v, hv, rfl⟩ := Language.mem_mul.1 ha
    have hinside : (['\''] ++ v ++ ['\'']).tail.dropLast = v := List.dropLast_concat
    rw [hinside]
    exact .string hv
  | lineComment =>
    cases hcut
    exact yields_comment (.inl hw)
  | blockComment =>
    cases hcut
    have hb : Begins State.blockCommentEnd.reads w := begins_reads (v := ['\x7d']) h.run rfl
    exact .openComment (hne (by decide)) (not_mem_lexemes h.run rfl)
      (hb.mono fun v hv => .inr hv)
  | blockCommentEnd =>
    cases hcut
    exact yields_comment (.inr hw)
  | slash | operator | less | dot | doubleDot | symbol =>
    obtain ⟨x, rfl⟩ := IsSymbolic.mem_symbols (by simp [IsSymbolic]) hw
    rw [accept, ofChars?_chars] at hcut
    cases hcut
    exact .symbol x

/-- Lexemes are read by the lexical grammar. In front of a text that is not empty and does not start
with a blank let `w` be the longest beginning of a lexeme. Then one run of the automaton over the
bytes of the text ends with an answer, which is the cut of the tokenizer, and the answer is what the
grammar says of `w`. Behind a symbol the automaton never misses it in the list of symbols. -/
theorem lexeme_yields (keep : Bool) (p : Position) (c : Char) (cs : List Char)
    (hblank : isBlank c = false) :
    automaton (c :: cs) = some (lexeme c cs) ∧
      (∃ w rest, w ++ rest = c :: cs ∧ Longest (c :: cs) w ∧
        Yields keep p w rest ((lexeme c cs).result? keep p) (lexeme c cs).rest) ∧
      ∀ s w rest, start.Stops (c :: cs) s w rest → s.IsSymbolic →
        (Symbol.ofChars? w).isSome = true := by
  obtain ⟨s, w, rest, h⟩ := exists_stops .start (c :: cs)
  have hs : s ≠ .blank := by
    rintro rfl
    obtain ⟨hne, hw⟩ := mem_many.1 (run_start.1 h.run)
    obtain ⟨d, v, rfl⟩ := List.exists_cons_of_ne_nil hne
    obtain ⟨rfl, -⟩ := h.head
    rw [hw c List.mem_cons_self] at hblank
    cases hblank
  refine ⟨automaton_lexeme c cs, ⟨w, rest, h.append, longest_of_stops h hs, ?_⟩, ?_⟩
  · exact yields_of_accept h hs (accept_eq h)
  · intro t v more ht hsymbolic
    obtain ⟨x, hx, -⟩ := lexeme_at_symbolic hsymbolic ht
    rw [hx]
    rfl

theorem lexeme_yields_range :
    isBlank '1' = false ∧ automaton ['1', '.', '.', '5'] = some (lexeme '1' ['.', '.', '5']) ∧
      (∃ w rest, w ++ rest = ['1', '.', '.', '5'] ∧ Longest ['1', '.', '.', '5'] w ∧
        Yields true ⟨3, 7⟩ w rest ((lexeme '1' ['.', '.', '5']).result? true ⟨3, 7⟩)
          (lexeme '1' ['.', '.', '5']).rest) ∧
      ∀ s w rest, start.Stops ['1', '.', '.', '5'] s w rest → s.IsSymbolic →
        (Symbol.ofChars? w).isSome = true :=
  ⟨rfl, lexeme_yields true ⟨3, 7⟩ '1' ['.', '.', '5'] rfl⟩

end MiniPascal.Token
