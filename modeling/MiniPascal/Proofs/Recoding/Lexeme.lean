import MiniPascal.Proofs.Recoding.Cursor
import MiniPascal.Proofs.Token.Alone

/-! Cutting a text does not look at the case of letters, but for the insides of strings. -/

namespace MiniPascal

open Token

/-! ### Characters in lower case -/

theorem toLower_of_not_isAlpha : ∀ ch : Char, ch.isAlpha = false → ch.toLower = ch :=
  forall_char (by decide +kernel) fun _ h _ => h

theorem toLower_eq_iff {ch d : Char} (hd : d.isAlpha = false) : ch.toLower = d ↔ ch = d := by
  constructor
  · rintro rfl
    rw [Char.isAlpha_toLower_eq_isAlpha] at hd
    exact (toLower_of_not_isAlpha ch hd).symm
  · rintro rfl
    exact toLower_of_not_isAlpha ch hd

namespace Token

open State

variable {s : State} {w rest : List Char}

theorem isDigit_toLower : ∀ ch : Char, ch.toLower.isDigit = ch.isDigit :=
  forall_char (by decide +kernel) fun _ h => by rw [h]

theorem isDigit_comp_toLower : Char.isDigit ∘ Char.toLower = Char.isDigit :=
  funext isDigit_toLower

theorem digitValue_toLower : ∀ ch : Char, digitValue ch.toLower = digitValue ch :=
  forall_char (by decide +kernel) fun _ h => by rw [h]

theorem after_toLower (s : State) : ∀ ch : Char, s.after ch.toLower = s.after ch := by
  have hascii : ∀ s ∈ State.all, ∀ n < 128,
      s.after (Char.ofNat n).toLower = s.after (Char.ofNat n) := by decide +kernel
  exact forall_char (hascii s (mem_all s)) fun _ h => by rw [h]

theorem run_toLower (s : State) (w : List Char) : s.run (w.map Char.toLower) = s.run w := by
  induction w generalizing s with
  | nil => rfl
  | cons c w ih =>
    rw [List.map_cons, run_cons, run_cons, after_toLower]
    exact congrArg _ (funext fun t => ih t)

theorem ofDigits_toLower (base : Nat) (ds : List Char) :
    ofDigits base (ds.map Char.toLower) = ofDigits base ds := by
  simp only [ofDigits, List.foldl_map, digitValue_toLower]

theorem takeWhile_toLower (w : List Char) :
    (w.map Char.toLower).takeWhile Char.isDigit = w.takeWhile Char.isDigit := by
  have hdigits : (w.takeWhile Char.isDigit).map Char.toLower = (w.takeWhile Char.isDigit).map id :=
    List.map_congr_left fun ch hch => toLower_of_isDigit ch (List.all_eq_true.1
      List.all_takeWhile ch hch)
  rw [List.takeWhile_map, isDigit_comp_toLower, hdigits, List.map_id]

theorem dropWhile_toLower (w : List Char) :
    (w.map Char.toLower).dropWhile Char.isDigit = (w.dropWhile Char.isDigit).map Char.toLower := by
  rw [List.dropWhile_map, isDigit_comp_toLower]

theorem exponentValue_digits {c : Char} (hminus : c ≠ '-') (hplus : c ≠ '+') (ds : List Char) :
    exponentValue (c :: ds) = ofDigits 10 (c :: ds) := by
  unfold exponentValue
  split
  · rename_i h
    exact absurd (List.cons.inj h).1 hminus
  · rename_i h
    exact absurd (List.cons.inj h).1 hplus
  · rfl

theorem exponentValue_toLower (w : List Char) :
    exponentValue (w.map Char.toLower) = exponentValue w := by
  cases w with
  | nil => rfl
  | cons c ds =>
    by_cases hminus : c = '-'
    · subst hminus
      exact congrArg (fun n : Nat => -(n : Int)) (ofDigits_toLower 10 ds)
    by_cases hplus : c = '+'
    · subst hplus
      exact congrArg (fun n : Nat => (n : Int)) (ofDigits_toLower 10 ds)
    have hminus' : c.toLower ≠ '-' := fun h => hminus ((toLower_eq_iff rfl).1 h)
    have hplus' : c.toLower ≠ '+' := fun h => hplus ((toLower_eq_iff rfl).1 h)
    rw [List.map_cons, exponentValue_digits hminus' hplus', exponentValue_digits hminus hplus,
      ← List.map_cons, ofDigits_toLower]

theorem decimal_toLower (w : List Char) : decimal (w.map Char.toLower) = decimal w := by
  unfold decimal
  rw [takeWhile_toLower, dropWhile_toLower]
  cases w.dropWhile Char.isDigit with
  | nil => rfl
  | cons c more =>
    by_cases hpoint : c = '.'
    · subst hpoint
      have hlower : Char.toLower '.' = '.' := by decide
      simp only [List.map_cons, hlower, takeWhile_toLower, dropWhile_toLower, ← List.map_tail,
        exponentValue_toLower]
    · have hpoint' : c.toLower ≠ '.' := fun h => hpoint ((toLower_eq_iff rfl).1 h)
      simp only [List.map_cons]
      split
      · rename_i h
        exact absurd (List.cons.inj h).1 hpoint'
      split
      · rename_i h
        exact absurd (List.cons.inj h).1 hpoint
      simp only [List.tail_cons, exponentValue_toLower]

end Token

namespace Recoding

open State

variable {s : State} {w rest : List Char} {x : Cut}

def verdict (ρ : Recoding) : Verdict → Verdict
  | .token kind literal => .token kind literal
  | .blanks => .blanks
  | .failure e => .failure (ρ.lexError e)

def cut (ρ : Recoding) (x : Cut) : Cut :=
  ⟨ρ.verdict x.verdict, x.text.map ρ.letter, x.rest.map ρ.letter⟩

theorem ofList_folding (w : List Char) :
    folding.text (String.ofList w) = String.ofList (w.map Char.toLower) := by
  rw [text, String.toList_ofList]
  rfl

theorem integer_folding (base : Nat) (ds : List Char) :
    Token.integer base (ds.map Char.toLower) = folding.verdict (Token.integer base ds) := by
  simp only [Token.integer, ofDigits_toLower]
  split
  · rfl
  · simp only [verdict, lexError, ofList_folding]

theorem ofName?_folding (n : Name) : Keyword.ofName? (folding.name n) = Keyword.ofName? n := by
  simp only [Keyword.ofName?, canonical_name]

theorem chars_toLower (y : Symbol) : y.chars.map Char.toLower = y.chars := by
  cases y <;> decide

/-- In all states but that behind a string the letters may be folded before or after. -/
theorem accept_folding (hs : s ≠ .strQuote) (h : accept s w rest = some x) :
    accept s (w.map Char.toLower) (rest.map Char.toLower) = some (folding.cut x) := by
  cases s with
  | strQuote => exact absurd rfl hs
  | start =>
    obtain ⟨c, hc, rfl⟩ := Option.map_eq_some_iff.1 h
    simp only [accept, List.head?_map, hc, Option.map_some, cut, verdict, lexError, List.map_tail]
    rfl
  | word =>
    cases h
    have hname : Keyword.ofName? ⟨String.ofList (w.map Char.toLower)⟩ =
        Keyword.ofName? ⟨String.ofList w⟩ := by
      rw [← ofList_folding]
      exact ofName?_folding ⟨String.ofList w⟩
    simp only [accept, hname]
    rfl
  | slash | operator | less | dot | doubleDot | symbol =>
    obtain ⟨y, hy, rfl⟩ := Option.map_eq_some_iff.1 h
    obtain rfl := chars_of_ofChars? hy
    have hletter : y.chars.map folding.letter = y.chars := chars_toLower y
    simp only [accept, chars_toLower, hy, cut, hletter]
    rfl
  | integer | integerDot | hex | octal | binary =>
    -- the value of a digit does not depend on its case
    cases h
    simp only [accept, cut, ← List.map_tail, ← List.map_dropLast, integer_folding]
    rfl
  | fraction | exponentDigits =>
    cases h
    simp only [accept, cut, decimal_toLower]
    rfl
  | _ =>
    cases h
    simp only [accept, cut, verdict, lexError, ofList_folding]
    rfl

end Recoding

end MiniPascal
