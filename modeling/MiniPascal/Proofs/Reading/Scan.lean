import MiniPascal.Proofs.Reading.Ensures

/-! The tokens of a text as a cursor meets them: identifiers are words, and there are no more tokens
than characters. -/

namespace MiniPascal

namespace Token

/-- The piece is not an identifier, or all of it belongs to a word. -/
def Cut.Spelled (cut : Cut) : Prop :=
  ∀ literal, cut.verdict = .token .identifier literal → ∀ ch ∈ cut.text, isWordPart ch = true

theorem Cut.Spelled.of_verdict {cut : Cut} (h : ∀ l, cut.verdict ≠ .token .identifier l) :
    cut.Spelled := fun l hl => absurd hl (h l)

theorem integer_ne (base : Nat) (ds : List Char) (l : Literal) :
    integer base ds ≠ .token .identifier l := by
  simp only [integer]
  split <;> simp

theorem marked_spelled (mark : Char) (base : Nat) (isDigit : Char → Bool) (cs : List Char) :
    (marked mark base isDigit cs).Spelled := by
  refine .of_verdict fun l => ?_
  simp only [marked]
  split
  · simp
  · exact integer_ne _ _ l

namespace Mantissa

variable (m : Mantissa)

theorem exponentDigits_ne (lead : List Char) (negative : Bool) (cs : List Char) (l : Literal) :
    (m.exponentDigits lead negative cs).verdict ≠ .token .identifier l := by
  simp only [exponentDigits]
  split <;> simp

theorem signedExponent_ne (lead cs : List Char) (l : Literal) :
    (m.signedExponent lead cs).verdict ≠ .token .identifier l := by
  unfold signedExponent
  split <;> exact m.exponentDigits_ne _ _ _ l

theorem exponent_ne (text cs : List Char) (verdict : Verdict) (l : Literal)
    (h : verdict ≠ .token .identifier l) :
    (m.exponent text verdict cs).verdict ≠ .token .identifier l := by
  unfold exponent
  split
  · exact m.signedExponent_ne _ _ l
  · exact m.signedExponent_ne _ _ l
  · exact h

end Mantissa

theorem afterWhole_ne (whole cs : List Char) (l : Literal) :
    (afterWhole whole cs).verdict ≠ .token .identifier l := by
  unfold afterWhole
  split
  · dsimp only
    split
    · exact integer_ne _ _ l
    · exact Mantissa.exponent_ne _ _ _ _ l (by simp)
  · exact Mantissa.exponent_ne _ _ _ _ l (integer_ne _ _ l)

theorem string_ne (cs : List Char) (l : Literal) :
    (string cs).verdict ≠ .token .identifier l := by
  unfold string
  split <;> simp

theorem blockComment_ne (cs : List Char) (l : Literal) :
    (blockComment cs).verdict ≠ .token .identifier l := by
  unfold blockComment
  dsimp only
  split <;> simp

theorem shortSymbol_ne (c : Char) (cs : List Char) (l : Literal) :
    (shortSymbol c cs).verdict ≠ .token .identifier l := by
  unfold shortSymbol
  split <;> simp

theorem symbol_ne (c : Char) (cs : List Char) (l : Literal) :
    (symbol c cs).verdict ≠ .token .identifier l := by
  unfold symbol
  split
  · exact shortSymbol_ne _ _ l
  · split
    · simp
    · exact shortSymbol_ne _ _ l

theorem word_spelled (c : Char) (cs : List Char) (hc : isWordStart c = true) :
    (word c cs).Spelled := by
  intro l _ ch hch
  simp only [word, List.mem_cons] at hch
  rcases hch with rfl | hch
  · simp only [isWordStart, isWordPart, Char.isAlphanum, Bool.or_eq_true] at hc ⊢
    rcases hc with h | h
    · exact .inl (.inl h)
    · exact .inr h
  · exact List.all_eq_true.1 List.all_takeWhile ch hch

/-- Only words are identifiers. -/
theorem lexeme_spelled (c : Char) (cs : List Char) : (lexeme c cs).Spelled := by
  unfold lexeme
  split
  · exact .of_verdict (by simp)
  split
  · rename_i hc
    exact word_spelled c cs hc
  split
  · exact .of_verdict (afterWhole_ne _ _)
  split
  · exact marked_spelled _ _ _ _
  split
  · exact marked_spelled _ _ _ _
  split
  · exact marked_spelled _ _ _ _
  split
  · exact .of_verdict (string_ne _)
  split
  · exact .of_verdict (blockComment_ne _)
  split
  · exact .of_verdict (by simp [lineComment])
  · exact .of_verdict (symbol_ne _ _)

theorem result?_eq_ok {cut : Cut} {comments : Bool} {p : Position} {t : Token}
    (h : cut.result? comments p = some (.ok t)) :
    cut.verdict = .token t.kind t.literal ∧ t.text = String.ofList cut.text := by
  unfold Cut.result? at h
  split at h
  · simp at h
  · simp at h
  · rename_i kind literal hv
    split at h
    · simp at h
    · simp only [Option.some.injEq, Except.ok.injEq] at h
      subst h
      exact ⟨hv, rfl⟩

/-- Every token of a text has been cut somewhere. -/
theorem exists_lexeme (comments : Bool) (p : Position) (cs : List Char) {t : Token}
    (ht : .ok t ∈ scanFrom comments p cs) :
    ∃ c cs', (lexeme c cs').verdict = .token t.kind t.literal ∧
      t.text = String.ofList (lexeme c cs').text := by
  fun_induction scanFrom comments p cs with
  | case1 => cases ht
  | case2 p c cs cut results r hr ih =>
    rcases List.mem_cons.1 ht with rfl | ht
    · exact ⟨c, cs, result?_eq_ok hr⟩
    · exact ih ht
  | case3 p c cs cut results hr ih => exact ih ht

theorem scanFrom_spelled (comments : Bool) (p : Position) (cs : List Char) :
    ∀ t, .ok t ∈ scanFrom comments p cs → t.Spelled := by
  intro t ht hk ch hch
  obtain ⟨c, cs', hv, htext⟩ := exists_lexeme comments p cs ht
  rw [hk] at hv
  rw [htext, String.toList_ofList] at hch
  exact lexeme_spelled c cs' t.literal hv ch hch

theorem scanFrom_length_le (comments : Bool) (p : Position) (cs : List Char) :
    (scanFrom comments p cs).length ≤ cs.length := by
  fun_induction scanFrom comments p cs with
  | case1 => simp
  | case2 p c cs cut results r hr ih =>
    exact Nat.succ_le_succ (Nat.le_trans ih (lexeme_rest_le c cs))
  | case3 p c cs cut results hr ih =>
    exact Nat.le_succ_of_le (Nat.le_trans ih (lexeme_rest_le c cs))

end Token

namespace Cursor

/-- The cursor on a text hands out words, and no more tokens than the text has characters. -/
theorem ofText_ensures (text : String) :
    Read.Ensures (ofText text) fun c => c.Spelled ∧ c.size ≤ text.length := by
  intro c hc
  have hscan := Token.scanFrom_length_le false Position.start text.toList
  refine ⟨advance_spelled ⟨endOfFile_spelled _, Token.scanFrom_spelled _ _ _⟩ c hc, ?_⟩
  simp only [ofText, advance, Token.scan] at hc
  rw [String.length_toList] at hscan
  split at hc
  · cases hc
    simp [size, Token.endOfFile]
  · rename_i hp
    cases hc
    rw [hp, List.length_cons] at hscan
    simp only [size]
    split <;> omega
  · cases hc

end Cursor

end MiniPascal
