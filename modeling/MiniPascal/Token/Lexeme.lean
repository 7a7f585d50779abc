import MiniPascal.Double.Decimal
import MiniPascal.Token.Basic

/-! Cutting one lexeme off the front of a text: the longest piece that a word, number, string,
comment, symbol or run of blanks can start with. -/

namespace MiniPascal.Token

/-- What the cut piece is. -/
inductive Verdict where
  | token (kind : Kind) (literal : Literal)
  | blanks
  | failure (e : LexError)

/-- A piece of text, what it is, and what follows it. -/
structure Cut where
  verdict : Verdict
  text : List Char
  rest : List Char

/-- Characters between tokens. -/
def isBlank (c : Char) : Bool := c = ' ' || c = '\t' || c = '\n' || c = '\r'

/-- Letters are those of ASCII. -/
def isWordStart (c : Char) : Bool := c.isAlpha || c = '_'

/-- What a word goes on with. -/
def isWordPart (c : Char) : Bool := c.isAlphanum || c = '_'

/-- Digits of base eight. -/
def isOctalDigit (c : Char) : Bool := '0' ≤ c && c ≤ '7'

/-- Digits of base two. -/
def isBinaryDigit (c : Char) : Bool := c = '0' || c = '1'

/-- Digits of base sixteen, in either case. -/
def isHexDigit (c : Char) : Bool := c.isDigit || ('a' ≤ c && c ≤ 'f') || ('A' ≤ c && c ≤ 'F')

/-- The value of a digit. -/
def digitValue (c : Char) : Nat :=
  if c.isDigit then c.toNat - '0'.toNat else c.toLower.toNat - 'a'.toNat + 10

/-- The number a list of digits denotes. -/
def ofDigits (base : Nat) (ds : List Char) : Nat :=
  ds.foldl (fun n d => n * base + digitValue d) 0

/-- A word: a keyword if it is one, else an identifier. -/
def word (c : Char) (cs : List Char) : Cut :=
  let text := c :: cs.takeWhile isWordPart
  let kind := match Keyword.ofName? ⟨String.ofList text⟩ with
    | some k => Kind.keyword k
    | none => .identifier
  ⟨.token kind .plain, text, cs.dropWhile isWordPart⟩

/-- An integer, which has to fit into 64 bits. -/
def integer (base : Nat) (ds : List Char) : Verdict :=
  let n := ofDigits base ds
  if n < UInt64.size then .token .integer (.integer n)
  else .failure (.integerOverflow (String.ofList ds))

/-- An integer whose base is given by a mark in front of it. -/
def marked (mark : Char) (base : Nat) (isDigit : Char → Bool) (cs : List Char) : Cut :=
  let ds := cs.takeWhile isDigit
  let verdict := if ds.isEmpty then .failure (.malformedNumber mark.toString) else integer base ds
  ⟨verdict, mark :: ds, cs.dropWhile isDigit⟩

/-- A number in decimal notation, as far as it has been read: the digits before and behind the
point. -/
structure Mantissa where
  whole : List Char
  fraction : List Char

namespace Mantissa

/-- The value with ten to the given power. -/
def scaled (m : Mantissa) (exponent : Int) : Double :=
  Double.ofScaled (ofDigits 10 (m.whole ++ m.fraction)) (exponent - m.fraction.length)

/-- The digits of an exponent behind `lead`, which holds all that was read before them. -/
def exponentDigits (m : Mantissa) (lead : List Char) (negative : Bool) (cs : List Char) : Cut :=
  let ds := cs.takeWhile Char.isDigit
  let n : Int := ofDigits 10 ds
  let verdict :=
    if ds.isEmpty then .failure (.malformedNumber (String.ofList lead))
    else .token .double (.scientific (m.scaled (if negative then -n else n)))
  ⟨verdict, lead ++ ds, cs.dropWhile Char.isDigit⟩

/-- What follows the mark of an exponent: a sign or none, then digits. -/
def signedExponent (m : Mantissa) (lead : List Char) : List Char → Cut
  | '+' :: cs => m.exponentDigits (lead ++ ['+']) false cs
  | '-' :: cs => m.exponentDigits (lead ++ ['-']) true cs
  | cs => m.exponentDigits lead false cs

/-- An exponent behind `text` if there is one, else `verdict`. -/
def exponent (m : Mantissa) (text : List Char) (verdict : Verdict) : List Char → Cut
  | 'e' :: cs => m.signedExponent (text ++ ['e']) cs
  | 'E' :: cs => m.signedExponent (text ++ ['E']) cs
  | cs => ⟨verdict, text, cs⟩

end Mantissa

/-- What follows the digits `whole`: a point counts only with a digit behind it. -/
def afterWhole (whole : List Char) : List Char → Cut
  | '.' :: cs =>
    let fraction := cs.takeWhile Char.isDigit
    let m : Mantissa := ⟨whole, fraction⟩
    if fraction.isEmpty then ⟨integer 10 whole, whole, '.' :: cs⟩
    else m.exponent (whole ++ '.' :: fraction) (.token .double (.fraction (m.scaled 0)))
      (cs.dropWhile Char.isDigit)
  | cs => Mantissa.exponent ⟨whole, []⟩ whole (integer 10 whole) cs

/-- A number that starts with a decimal digit. -/
def number (c : Char) (cs : List Char) : Cut :=
  afterWhole (c :: cs.takeWhile Char.isDigit) (cs.dropWhile Char.isDigit)

/-- The inside of a string, up to a quote that is not doubled, and what follows that quote. -/
def closeQuote : List Char → Option (List Char × List Char)
  | [] => none
  | '\'' :: '\'' :: cs => (closeQuote cs).map fun (inside, rest) => ('\'' :: '\'' :: inside, rest)
  | '\'' :: cs => some ([], cs)
  | c :: cs => (closeQuote cs).map fun (inside, rest) => (c :: inside, rest)

/-- Takes doubled quotes as single ones. -/
def unquote : List Char → List Char
  | [] => []
  | '\'' :: '\'' :: cs => '\'' :: unquote cs
  | c :: cs => c :: unquote cs

/-- A string, whose opening quote has been read. -/
def string (cs : List Char) : Cut :=
  match closeQuote cs with
  | some (inside, rest) =>
    ⟨.token .string (.string (String.ofList (unquote inside))), '\'' :: (inside ++ ['\'']), rest⟩
  | none => ⟨.failure .unterminatedString, '\'' :: cs, []⟩

/-- A comment in braces, whose opening brace has been read. -/
def blockComment (cs : List Char) : Cut :=
  let inside := cs.takeWhile (· ≠ '\x7d')
  match cs.dropWhile (· ≠ '\x7d') with
  | close :: rest => ⟨.token .comment .plain, '\x7b' :: (inside ++ [close]), rest⟩
  | [] => ⟨.failure .unterminatedComment, '\x7b' :: inside, []⟩

/-- A comment that runs to the end of its line. -/
def lineComment (cs : List Char) : Cut :=
  ⟨.token .comment .plain, '/' :: cs.takeWhile (· ≠ '\n'), cs.dropWhile (· ≠ '\n')⟩

/-- A symbol of one character. -/
def shortSymbol (c : Char) (cs : List Char) : Cut :=
  match Symbol.ofChars? [c] with
  | some s => ⟨.token (.symbol s) .plain, [c], cs⟩
  | none => ⟨.failure (.unknownSymbol c), [c], cs⟩

/-- A symbol, of two characters if there is such a one. -/
def symbol (c : Char) : List Char → Cut
  | [] => shortSymbol c []
  | d :: cs =>
    match Symbol.ofChars? [c, d] with
    | some s => ⟨.token (.symbol s) .plain, [c, d], cs⟩
    | none => shortSymbol c (d :: cs)

/-- The first lexeme of the text `c :: cs`. -/
def lexeme (c : Char) (cs : List Char) : Cut :=
  if isBlank c then ⟨.blanks, c :: cs.takeWhile isBlank, cs.dropWhile isBlank⟩
  else if isWordStart c then word c cs
  else if c.isDigit then number c cs
  else if c = '$' then marked c 16 isHexDigit cs
  else if c = '&' then marked c 8 isOctalDigit cs
  else if c = '%' then marked c 2 isBinaryDigit cs
  else if c = '\'' then string cs
  else if c = '\x7b' then blockComment cs
  else if c = '/' ∧ cs.head? = some '/' then lineComment cs
  else symbol c cs

/-- A cut of a text: the piece, which starts as the text does, and the rest. -/
def Cut.Of (cut : Cut) (c : Char) (cs : List Char) : Prop :=
  ∃ piece, cut.text = c :: piece ∧ piece ++ cut.rest = cs

theorem Mantissa.exponentDigits_append (m : Mantissa) (lead : List Char) (negative : Bool)
    (cs : List Char) :
    ∃ more, (m.exponentDigits lead negative cs).text = lead ++ more ∧
      more ++ (m.exponentDigits lead negative cs).rest = cs :=
  ⟨cs.takeWhile Char.isDigit, rfl, List.takeWhile_append_dropWhile⟩

theorem Mantissa.signedExponent_append (m : Mantissa) (lead cs : List Char) :
    ∃ more, (m.signedExponent lead cs).text = lead ++ more ∧
      more ++ (m.signedExponent lead cs).rest = cs := by
  unfold signedExponent
  split
  · obtain ⟨more, ht, hr⟩ := m.exponentDigits_append (lead ++ ['+']) false ‹_›
    exact ⟨'+' :: more, by simp [ht], by simp [hr]⟩
  · obtain ⟨more, ht, hr⟩ := m.exponentDigits_append (lead ++ ['-']) true ‹_›
    exact ⟨'-' :: more, by simp [ht], by simp [hr]⟩
  · exact m.exponentDigits_append lead false cs

theorem Mantissa.exponent_append (m : Mantissa) (text : List Char) (verdict : Verdict)
    (cs : List Char) :
    ∃ more, (m.exponent text verdict cs).text = text ++ more ∧
      more ++ (m.exponent text verdict cs).rest = cs := by
  unfold exponent
  split
  · obtain ⟨more, ht, hr⟩ := m.signedExponent_append (text ++ ['e']) ‹_›
    exact ⟨'e' :: more, by simp [ht], by simp [hr]⟩
  · obtain ⟨more, ht, hr⟩ := m.signedExponent_append (text ++ ['E']) ‹_›
    exact ⟨'E' :: more, by simp [ht], by simp [hr]⟩
  · exact ⟨[], by simp, by simp⟩

theorem afterWhole_append (whole cs : List Char) :
    ∃ more, (afterWhole whole cs).text = whole ++ more ∧
      more ++ (afterWhole whole cs).rest = cs := by
  unfold afterWhole
  split
  · rename_i cs
    dsimp only
    split
    · exact ⟨[], by simp, by simp⟩
    · obtain ⟨more, ht, hr⟩ := Mantissa.exponent_append ⟨whole, cs.takeWhile Char.isDigit⟩
        (whole ++ '.' :: cs.takeWhile Char.isDigit) (.token .double (.fraction
          (Mantissa.scaled ⟨whole, cs.takeWhile Char.isDigit⟩ 0))) (cs.dropWhile Char.isDigit)
      exact ⟨'.' :: (cs.takeWhile Char.isDigit ++ more), by simp [ht], by
        simp only [List.cons_append, List.append_assoc, hr, List.takeWhile_append_dropWhile]⟩
  · exact Mantissa.exponent_append _ _ _ _

theorem closeQuote_append {cs inside rest : List Char} (h : closeQuote cs = some (inside, rest)) :
    inside ++ '\'' :: rest = cs := by
  fun_induction closeQuote cs generalizing inside rest with
  | case1 => simp at h
  | case2 cs ih =>
    obtain ⟨⟨i, r⟩, hq, hp⟩ := Option.map_eq_some_iff.1 h
    simp only [Prod.mk.injEq] at hp
    obtain ⟨rfl, rfl⟩ := hp
    simp [ih hq]
  | case3 cs =>
    simp only [Option.some.injEq, Prod.mk.injEq] at h
    obtain ⟨rfl, rfl⟩ := h
    rfl
  | case4 c cs _ _ ih =>
    obtain ⟨⟨i, r⟩, hq, hp⟩ := Option.map_eq_some_iff.1 h
    simp only [Prod.mk.injEq] at hp
    obtain ⟨rfl, rfl⟩ := hp
    simp [ih hq]

theorem shortSymbol_of (c : Char) (cs : List Char) : (shortSymbol c cs).Of c cs := by
  unfold shortSymbol
  split <;> exact ⟨[], rfl, rfl⟩

theorem symbol_of (c : Char) (cs : List Char) : (symbol c cs).Of c cs := by
  unfold symbol
  split
  · exact shortSymbol_of c []
  · rename_i d cs
    split
    · exact ⟨[d], rfl, rfl⟩
    · exact shortSymbol_of c (d :: cs)

theorem string_of (cs : List Char) : (string cs).Of '\'' cs := by
  unfold string
  split
  · rename_i inside rest h
    exact ⟨inside ++ ['\''], rfl, by simpa using closeQuote_append h⟩
  · exact ⟨cs, rfl, by simp⟩

theorem blockComment_of (cs : List Char) : (blockComment cs).Of '\x7b' cs := by
  have hcs : cs.takeWhile (· ≠ '\x7d') ++ cs.dropWhile (· ≠ '\x7d') = cs :=
    List.takeWhile_append_dropWhile
  unfold blockComment
  dsimp only
  split
  · rename_i close rest h
    rw [h] at hcs
    exact ⟨cs.takeWhile (· ≠ '\x7d') ++ [close], rfl, by simpa using hcs⟩
  · rename_i h
    rw [h] at hcs
    exact ⟨cs.takeWhile (· ≠ '\x7d'), rfl, by simpa using hcs⟩

/-- A lexeme and what follows it are the text, and the lexeme has its first character. -/
theorem lexeme_of (c : Char) (cs : List Char) : (lexeme c cs).Of c cs := by
  have run (p : Char → Bool) : cs.takeWhile p ++ cs.dropWhile p = cs :=
    List.takeWhile_append_dropWhile
  unfold lexeme
  split
  · exact ⟨_, rfl, run _⟩
  split
  · exact ⟨_, rfl, run _⟩
  split
  · obtain ⟨more, ht, hr⟩ :=
      afterWhole_append (c :: cs.takeWhile Char.isDigit) (cs.dropWhile Char.isDigit)
    exact ⟨cs.takeWhile Char.isDigit ++ more, ht, by
      rw [List.append_assoc, number, hr, run]⟩
  split
  · exact ⟨_, rfl, run _⟩
  split
  · exact ⟨_, rfl, run _⟩
  split
  · exact ⟨_, rfl, run _⟩
  split
  · subst c; exact string_of cs
  split
  · subst c; exact blockComment_of cs
  split
  · rename_i h
    obtain ⟨rfl, hd⟩ := h
    cases cs with
    | nil => simp at hd
    | cons d cs => exact ⟨_, rfl, run _⟩
  · exact symbol_of c cs

theorem lexeme_append (c : Char) (cs : List Char) :
    (lexeme c cs).text ++ (lexeme c cs).rest = c :: cs := by
  obtain ⟨piece, ht, hr⟩ := lexeme_of c cs
  rw [ht, List.cons_append, hr]

theorem lexeme_rest_le (c : Char) (cs : List Char) : (lexeme c cs).rest.length ≤ cs.length := by
  obtain ⟨piece, _, hr⟩ := lexeme_of c cs
  have := congrArg List.length hr
  simp only [List.length_append] at this
  omega

end MiniPascal.Token
