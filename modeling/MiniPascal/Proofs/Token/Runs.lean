import MiniPascal.Proofs.Token.Automaton

/-! The texts that lead to a state. -/

namespace MiniPascal.Token

open Computability

namespace State

/-- The texts that lead from the start to a state. -/
def reads : State → Language Char
  | start => 1
  | blank => many isBlank
  | word => words
  | integer => many Char.isDigit
  | integerDot => many Char.isDigit * {['.']}
  | fraction => fractions
  | exponent => mantissas * one isExponentMark
  | exponentSign => mantissas * one isExponentMark * one isSign
  | exponentDigits => scientifics
  | hexPrefix => {['$']}
  | hex => {['$']} * many isHexDigit
  | octalPrefix => {['&']}
  | octal => {['&']} * many isOctalDigit
  | binaryPrefix => {['%']}
  | binary => {['%']} * many isBinaryDigit
  | str => {['\'']} * quotes
  | strQuote => strings
  | slash => {['/']}
  | lineComment => {['/', '/']} * (one (· ≠ '\n'))∗
  | blockComment => {['\x7b']} * (one (· ≠ '\x7d'))∗
  | blockCommentEnd => {['\x7b']} * (one (· ≠ '\x7d'))∗ * {['\x7d']}
  | operator => one isOperator
  | less => {['<']}
  | dot => {['.']}
  | doubleDot => {['.', '.']}
  | symbol =>
    one isClosed + one isOperator * {['=']} + {['/', '=']} + {['<', '>']} + {['<', '=']}

variable {s t u : State} {p : Char → Bool} {l m : Language Char} {c : Char}
  {v w text rest : List Char}

/-! ### Along an edge -/

theorem mem_exactly_of {d : Char} (h : decide (c = d) = true) :
    [c] ∈ ({[d]} : Language Char) := by
  obtain rfl := of_decide_eq_true h
  rfl

/-- A character on an edge leads from the texts of one state to those of the other. -/
theorem reads_snoc {e : (Char → Bool) × State} (he : e ∈ s.edges) (hv : v ∈ s.reads)
    (hc : e.1 c = true) : v ++ [c] ∈ e.2.reads := by
  cases s with
  | start =>
    cases hv
    simp only [edges, List.mem_cons, List.not_mem_nil, or_false] at he
    rcases he with rfl | rfl | rfl | rfl | rfl | rfl | rfl | rfl | rfl | rfl | rfl | rfl | rfl
    · exact mem_words.2 ⟨c, [], rfl, hc, List.forall_mem_nil _⟩
    · exact one_mem_many hc
    · exact mem_exactly_of hc
    · exact mem_exactly_of hc
    · exact mem_exactly_of hc
    · exact one_mem_many hc
    · obtain rfl := of_decide_eq_true hc
      exact mem_mul_of_nil rfl (Language.nil_mem_kstar _)
    · exact mem_exactly_of hc
    · obtain rfl := of_decide_eq_true hc
      exact mem_mul_of_nil rfl (Language.nil_mem_kstar _)
    · exact mem_one_of hc
    · exact mem_exactly_of hc
    · exact mem_exactly_of hc
    · exact .inl (.inl (.inl (.inl (mem_one_of hc))))
  | blank =>
    obtain rfl := List.mem_singleton.1 he
    exact snoc_mem_many hv hc
  | word =>
    obtain rfl := List.mem_singleton.1 he
    exact snoc_mem_mul hv fun u hu => snoc_mem_star hu (mem_one_of hc)
  | integer =>
    simp only [edges, List.mem_cons, List.not_mem_nil, or_false] at he
    rcases he with rfl | rfl | rfl
    · exact snoc_mem_many hv hc
    · obtain rfl := of_decide_eq_true hc
      exact Language.append_mem_mul hv rfl
    · exact Language.append_mem_mul (many_le_mantissas hv) (mem_one_of hc)
  | integerDot =>
    obtain rfl := List.mem_singleton.1 he
    show v ++ [c] ∈ fractions
    rw [fractions, ← mul_assoc]
    exact Language.append_mem_mul hv (one_mem_many hc)
  | fraction =>
    simp only [edges, List.mem_cons, List.not_mem_nil, or_false] at he
    rcases he with rfl | rfl
    · exact snoc_mem_mul hv fun u hu => snoc_mem_mul hu fun d hd => snoc_mem_many hd hc
    · exact Language.append_mem_mul (fractions_le_mantissas hv) (mem_one_of hc)
  | exponent =>
    simp only [edges, List.mem_cons, List.not_mem_nil, or_false] at he
    rcases he with rfl | rfl
    · exact Language.append_mem_mul (mem_mul_of_nil hv (.inl rfl)) (one_mem_many hc)
    · exact Language.append_mem_mul hv (mem_one_of hc)
  | exponentSign =>
    obtain rfl := List.mem_singleton.1 he
    obtain ⟨a, ha, b, hb, rfl⟩ := Language.mem_mul.1 hv
    exact Language.append_mem_mul (Language.append_mem_mul ha (.inr hb)) (one_mem_many hc)
  | exponentDigits =>
    obtain rfl := List.mem_singleton.1 he
    exact snoc_mem_mul hv fun u hu => snoc_mem_many hu hc
  | hexPrefix | octalPrefix | binaryPrefix =>
    obtain rfl := List.mem_singleton.1 he
    exact Language.append_mem_mul hv (one_mem_many hc)
  | hex | octal | binary =>
    obtain rfl := List.mem_singleton.1 he
    exact snoc_mem_mul hv fun u hu => snoc_mem_many hu hc
  | str =>
    simp only [edges, List.mem_cons, List.not_mem_nil, or_false] at he
    rcases he with rfl | rfl
    · exact snoc_mem_mul hv fun u hu => snoc_mem_star hu (.inl (mem_one_of hc))
    · obtain rfl := of_decide_eq_true hc
      exact Language.append_mem_mul hv rfl
  | strQuote =>
    obtain rfl := List.mem_singleton.1 he
    obtain rfl := of_decide_eq_true hc
    -- the second of two quotes makes the first one a part of the inside
    obtain ⟨a, ha, b, rfl, rfl⟩ := Language.mem_mul.1 hv
    obtain ⟨q, hq, i, hi, rfl⟩ := Language.mem_mul.1 ha
    rw [List.append_assoc, List.append_assoc]
    exact Language.append_mem_mul hq (snoc_mem_star hi (.inr rfl))
  | slash =>
    cases hv
    simp only [edges, List.mem_cons, List.not_mem_nil, or_false] at he
    rcases he with rfl | rfl
    · obtain rfl := of_decide_eq_true hc
      exact mem_mul_of_nil rfl (Language.nil_mem_kstar _)
    · obtain rfl := of_decide_eq_true hc
      exact .inl (.inl (.inr rfl))
  | lineComment =>
    obtain rfl := List.mem_singleton.1 he
    exact snoc_mem_mul hv fun u hu => snoc_mem_star hu (mem_one_of hc)
  | blockComment =>
    simp only [edges, List.mem_cons, List.not_mem_nil, or_false] at he
    rcases he with rfl | rfl
    · exact snoc_mem_mul hv fun u hu => snoc_mem_star hu (mem_one_of hc)
    · obtain rfl := of_decide_eq_true hc
      exact Language.append_mem_mul hv rfl
  | operator =>
    obtain rfl := List.mem_singleton.1 he
    obtain rfl := of_decide_eq_true hc
    exact .inl (.inl (.inl (.inr (Language.append_mem_mul hv rfl))))
  | less =>
    cases hv
    simp only [edges, List.mem_cons, List.not_mem_nil, or_false] at he
    rcases he with rfl | rfl
    · obtain rfl := of_decide_eq_true hc
      exact .inl (.inr rfl)
    · obtain rfl := of_decide_eq_true hc
      exact .inr rfl
  | dot =>
    cases hv
    obtain rfl := List.mem_singleton.1 he
    obtain rfl := of_decide_eq_true hc
    rfl
  | blockCommentEnd | doubleDot | symbol => cases he

/-- What a run has read belongs to the state it is in. -/
theorem reads_of_run (hv : v ∈ s.reads) (h : s.run w = some t) : v ++ w ∈ t.reads := by
  -- `v` is what has been read before, and it grows along the run
  induction w generalizing s v with
  | nil =>
    cases h
    rwa [List.append_nil]
  | cons c w ih =>
    rw [run_cons] at h
    obtain ⟨u, hc, h⟩ := Option.bind_eq_some_iff.1 h
    obtain ⟨p, he, hp⟩ := exists_edge hc
    have hu : v ++ [c] ∈ u.reads := reads_snoc he hv hp
    have hw := ih hu h
    rwa [List.append_assoc] at hw

/-! ### Runs over the texts of a language -/

/-- Every text of a language leads from one state to another. -/
def Leads (s : State) (l : Language Char) (t : State) : Prop := ∀ w ∈ l, s.run w = some t

namespace Leads

theorem nil : Leads s 1 s := by
  rintro _ rfl
  rfl

theorem edge (h : (p, t) ∈ s.edges) : Leads s (one p) t := by
  rintro _ ⟨c, hc, rfl⟩
  rw [run_cons, after_of_edge h hc]
  rfl

theorem exactly (h : s.run v = some t) : Leads s {v} t := by
  rintro _ rfl
  exact h

theorem mul (hl : Leads s l t) (hm : Leads t m u) : Leads s (l * m) u := by
  intro w hw
  obtain ⟨a, ha, b, hb, rfl⟩ := Language.mem_mul.1 hw
  rw [run_append, hl a ha]
  exact hm b hb

theorem add (hl : Leads s l t) (hm : Leads s m t) : Leads s (l + m) t := by
  rintro w (hw | hw)
  · exact hl w hw
  · exact hm w hw

theorem star (h : Leads s l s) : Leads s l∗ s := by
  rintro _ ⟨ws, rfl, hws⟩
  induction ws with
  | nil => rfl
  | cons v ws ih =>
    obtain ⟨hv, hws⟩ := List.forall_mem_cons.1 hws
    rw [List.flatten_cons, run_append, h v hv]
    exact ih hws

theorem many (h : (p, t) ∈ s.edges) (h' : (p, t) ∈ t.edges) : Leads s (Token.many p) t :=
  (edge h).mul (edge h').star

/-- A factor that may be missing. -/
theorem optional (hl : Leads s l t) (hs : Leads s m u) (ht : Leads t m u) :
    Leads s ((1 + l) * m) u := by
  rw [add_mul, one_mul]
  exact add hs (hl.mul ht)

end Leads

theorem leads_digits : Leads start (many Char.isDigit) integer :=
  .many (by simp [edges]) (by simp [edges])

theorem leads_fraction : Leads integer ({['.']} * many Char.isDigit) fraction :=
  .mul (t := integerDot) (.exactly rfl) (.many (by simp [edges]) (by simp [edges]))

theorem leads_mantissas (hs : Leads integer l t) (ht : Leads fraction l t) :
    Leads start (mantissas * l) t := by
  rw [mantissas, mul_assoc]
  exact leads_digits.mul (leads_fraction.optional hs ht)

theorem leads_exponent : Leads start (mantissas * one isExponentMark) exponent :=
  leads_mantissas (.edge (by simp [edges])) (.edge (by simp [edges]))

theorem leads_scientifics : Leads start scientifics exponentDigits := by
  have hsign : Leads exponent (one isSign) exponentSign := .edge (by simp [edges])
  have hplain : Leads exponent (many Char.isDigit) exponentDigits :=
    .many (by simp [edges]) (by simp [edges])
  have hsigned : Leads exponentSign (many Char.isDigit) exponentDigits :=
    .many (by simp [edges]) (by simp [edges])
  rw [scientifics, mul_assoc (mantissas * one isExponentMark)]
  exact leads_exponent.mul (hsign.optional hplain hsigned)

theorem leads_str : Leads start ({['\'']} * quotes) str := by
  have hplain : Leads str (one (· ≠ '\'')) str := .edge (by simp [edges])
  have hpair : Leads str {['\'', '\'']} str := .exactly rfl
  exact .mul (.exactly rfl) (hplain.add hpair).star

theorem leads_blockComment :
    Leads start ({['\x7b']} * (one (· ≠ '\x7d'))∗) blockComment :=
  .mul (.exactly rfl) (.star (.edge (by simp [edges])))

theorem leads_operator : Leads start (one isOperator) operator := .edge (by simp [edges])

/-- The texts of a state lead to it. -/
theorem leads_reads (t : State) : Leads start t.reads t := by
  cases t with
  | start => exact .nil
  | blank => exact .many (by simp [edges]) (by simp [edges])
  | word => exact .mul (.edge (by simp [edges])) (.star (.edge (by simp [edges])))
  | integer => exact leads_digits
  | integerDot => exact leads_digits.mul (.exactly rfl)
  | fraction => exact leads_digits.mul leads_fraction
  | exponent => exact leads_exponent
  | exponentSign => exact leads_exponent.mul (.edge (by simp [edges]))
  | exponentDigits => exact leads_scientifics
  | hexPrefix | octalPrefix | binaryPrefix | slash | less | dot | doubleDot =>
    exact .exactly rfl
  | hex =>
    exact .mul (t := hexPrefix) (.exactly rfl) (.many (by simp [edges]) (by simp [edges]))
  | octal =>
    exact .mul (t := octalPrefix) (.exactly rfl) (.many (by simp [edges]) (by simp [edges]))
  | binary =>
    exact .mul (t := binaryPrefix) (.exactly rfl) (.many (by simp [edges]) (by simp [edges]))
  | str => exact leads_str
  | strQuote => exact leads_str.mul (.exactly rfl)
  | lineComment => exact .mul (.exactly rfl) (.star (.edge (by simp [edges])))
  | blockComment => exact leads_blockComment
  | blockCommentEnd => exact leads_blockComment.mul (.exactly rfl)
  | operator => exact leads_operator
  | symbol =>
    have hclosed : Leads start (one isClosed) symbol := .edge (by simp [edges])
    have hextended : Leads start (one isOperator * {['=']}) symbol :=
      leads_operator.mul (.exactly rfl)
    exact (((hclosed.add hextended).add (.exactly rfl)).add (.exactly rfl)).add (.exactly rfl)

/-- The automaton is in a state exactly behind the texts of the state. -/
theorem run_start : start.run w = some s ↔ w ∈ s.reads :=
  ⟨fun h => reads_of_run Language.nil_mem_one h, leads_reads s w⟩

/-! ### The lexemes -/

/-- The states behind a whole lexeme. -/
def final : State → Bool
  | start | blank | integerDot | exponent | exponentSign | hexPrefix | octalPrefix | binaryPrefix
  | str | blockComment => false
  | word | integer | fraction | exponentDigits | hex | octal | binary | strQuote | slash
  | lineComment | blockCommentEnd | operator | less | dot | doubleDot | symbol => true

theorem run_symbol (s : Symbol) : ∃ t : State, t.final = true ∧ start.run s.chars = some t := by
  cases s <;> exact ⟨_, by decide, rfl⟩

theorem mem_symbols_of_isOperator (h : isOperator c = true) : [c] ∈ symbols := by
  simp only [isOperator, Bool.or_eq_true, decide_eq_true_eq] at h
  rcases h with (((rfl | rfl) | rfl) | rfl) | rfl
  · exact ⟨.plus, rfl⟩
  · exact ⟨.minus, rfl⟩
  · exact ⟨.times, rfl⟩
  · exact ⟨.colon, rfl⟩
  · exact ⟨.greater, rfl⟩

theorem mem_symbols_of_extended (h : isOperator c = true) : [c, '='] ∈ symbols := by
  simp only [isOperator, Bool.or_eq_true, decide_eq_true_eq] at h
  rcases h with (((rfl | rfl) | rfl) | rfl) | rfl
  · exact ⟨.plusAssign, rfl⟩
  · exact ⟨.minusAssign, rfl⟩
  · exact ⟨.timesAssign, rfl⟩
  · exact ⟨.assign, rfl⟩
  · exact ⟨.greaterEqual, rfl⟩

theorem mem_symbols_of_isClosed (h : isClosed c = true) : [c] ∈ symbols := by
  simp only [isClosed, Bool.or_eq_true, decide_eq_true_eq] at h
  rcases h with (((((((rfl | rfl) | rfl) | rfl) | rfl) | rfl) | rfl) | rfl) | rfl
  · exact ⟨.equal, rfl⟩
  · exact ⟨.semicolon, rfl⟩
  · exact ⟨.comma, rfl⟩
  · exact ⟨.openParen, rfl⟩
  · exact ⟨.closeParen, rfl⟩
  · exact ⟨.openSquare, rfl⟩
  · exact ⟨.closeSquare, rfl⟩
  · exact ⟨.caret, rfl⟩
  · exact ⟨.atSign, rfl⟩

/-- The states behind a symbol. -/
def IsSymbolic (s : State) : Prop :=
  s = slash ∨ s = operator ∨ s = less ∨ s = dot ∨ s = doubleDot ∨ s = symbol

/-- What has been read in a state behind a symbol is in the list of symbols. -/
theorem IsSymbolic.mem_symbols (h : s.IsSymbolic) (hw : w ∈ s.reads) : w ∈ symbols := by
  rcases h with rfl | rfl | rfl | rfl | rfl | rfl
  · cases hw
    exact ⟨.slash, rfl⟩
  · obtain ⟨c, hc, rfl⟩ := hw
    exact mem_symbols_of_isOperator hc
  · cases hw
    exact ⟨.less, rfl⟩
  · cases hw
    exact ⟨.dot, rfl⟩
  · cases hw
    exact ⟨.doubleDot, rfl⟩
  · rcases hw with (((⟨c, hc, rfl⟩ | hw) | rfl) | rfl) | rfl
    · exact mem_symbols_of_isClosed hc
    · obtain ⟨_, ⟨c, hc, rfl⟩, _, rfl, rfl⟩ := Language.mem_mul.1 hw
      exact mem_symbols_of_extended hc
    · exact ⟨.slashAssign, rfl⟩
    · exact ⟨.notEqual, rfl⟩
    · exact ⟨.lessEqual, rfl⟩

end State

open State

variable {s : State} {v w text rest : List Char}

/-- The lexemes are the texts that lead to a final state. -/
theorem mem_lexemes : w ∈ lexemes ↔ ∃ s : State, s.final = true ∧ start.run w = some s := by
  constructor
  · have hfinal : ∀ s : State, s.final = true → w ∈ s.reads →
        ∃ s : State, s.final = true ∧ start.run w = some s :=
      fun s hs hw => ⟨s, hs, run_start.2 hw⟩
    rintro (((((hw | ((hw | hw) | hw) | hw) | hw | hw) | hw) | hw | hw) | ⟨s, rfl⟩)
    · exact hfinal .word rfl hw
    · exact hfinal .integer rfl hw
    · exact hfinal .hex rfl hw
    · exact hfinal .octal rfl hw
    · exact hfinal .binary rfl hw
    · exact hfinal .fraction rfl hw
    · exact hfinal .exponentDigits rfl hw
    · exact hfinal .strQuote rfl hw
    · exact hfinal .lineComment rfl hw
    · exact hfinal .blockCommentEnd rfl hw
    · exact run_symbol s
  · rintro ⟨s, hs, hw⟩
    have hw := run_start.1 hw
    -- one class of lexemes for each final state, and one for all that read symbols
    cases s with
    | start | blank | integerDot | exponent | exponentSign | hexPrefix | octalPrefix
    | binaryPrefix | str | blockComment => cases hs
    | word => exact .inl (.inl (.inl (.inl (.inl hw))))
    | integer => exact .inl (.inl (.inl (.inl (.inr (.inl (.inl (.inl hw)))))))
    | hex => exact .inl (.inl (.inl (.inl (.inr (.inl (.inl (.inr hw)))))))
    | octal => exact .inl (.inl (.inl (.inl (.inr (.inl (.inr hw))))))
    | binary => exact .inl (.inl (.inl (.inl (.inr (.inr hw)))))
    | fraction => exact .inl (.inl (.inl (.inr (.inl hw))))
    | exponentDigits => exact .inl (.inl (.inl (.inr (.inr hw))))
    | strQuote => exact .inl (.inl (.inr hw))
    | lineComment => exact .inl (.inr (.inl hw))
    | blockCommentEnd => exact .inl (.inr (.inr hw))
    | slash | operator | less | dot | doubleDot | symbol =>
      exact .inr (IsSymbolic.mem_symbols (by simp [IsSymbolic]) hw)

/-- From every state that is not behind blanks a lexeme can still be completed. -/
theorem begins_of_run (hs : s ≠ .blank) (h : start.run w = some s) : Begins lexemes w := by
  have hmore : ∃ v t, State.final t = true ∧ s.run v = some t := by
    cases s with
    | blank => exact absurd rfl hs
    | start => exact ⟨['='], _, by decide, rfl⟩
    | integerDot | exponent | exponentSign | hexPrefix | octalPrefix | binaryPrefix =>
      exact ⟨['0'], _, by decide, rfl⟩
    | str => exact ⟨['\''], _, by decide, rfl⟩
    | blockComment => exact ⟨['\x7d'], _, by decide, rfl⟩
    | word | integer | fraction | exponentDigits | hex | octal | binary | strQuote | slash
    | lineComment | blockCommentEnd | operator | less | dot | doubleDot | symbol =>
      exact ⟨[], _, by decide, rfl⟩
  obtain ⟨v, t, ht, hv⟩ := hmore
  refine ⟨v, mem_lexemes.2 ⟨t, ht, ?_⟩⟩
  rw [run_append, h]
  exact hv

/-- The automaton reads every beginning of a lexeme. -/
theorem run_of_begins (h : Begins lexemes w) : ∃ s, start.run w = some s := by
  obtain ⟨v, hv⟩ := h
  obtain ⟨t, -, hrun⟩ := mem_lexemes.1 hv
  rw [run_append] at hrun
  obtain ⟨s, hs, -⟩ := Option.bind_eq_some_iff.1 hrun
  exact ⟨s, hs⟩

/-- Where a walk stops that has met no blanks, the longest beginning of a lexeme ends. -/
theorem longest_of_stops (h : start.Stops text s w rest) (hs : s ≠ .blank) : Longest text w where
  append := ⟨rest, h.append⟩
  begins := begins_of_run hs h.run
  maximal := by
    intro u v huv hu
    obtain ⟨t, ht⟩ := run_of_begins hu
    exact h.maximal huv ht

end MiniPascal.Token
