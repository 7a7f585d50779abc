import Mathlib
import MiniPascal.Proofs.Token.Language

/-! The automaton behind the lexical grammar: a table with a row for every state and a column for
every byte. -/

namespace MiniPascal.Token

/-- The states of the automaton. That the automaton has to stop is `none` in their place. -/
inductive State where
  | start | blank | word
  | integer | integerDot | fraction | exponent | exponentSign | exponentDigits
  | hexPrefix | hex | octalPrefix | octal | binaryPrefix | binary
  | str | strQuote
  | slash | lineComment | blockComment | blockCommentEnd
  | operator | less | dot | doubleDot | symbol
  deriving DecidableEq, Repr

/-- Writes one state into several columns of a row. -/
structure Write where
  row : State
  columns : Char → Bool
  state : Option State

/-- Symbols that an equals sign can extend. -/
def isOperator (c : Char) : Bool := c = '+' || c = '-' || c = '*' || c = ':' || c = '>'

/-- Symbols that nothing extends. -/
def isClosed (c : Char) : Bool :=
  c = '=' || c = ';' || c = ',' || c = '(' || c = ')' || c = '[' || c = ']' || c = '^' || c = '@'

namespace State

/-- The writes that make the table, in their order. -/
def writes : List Write :=
  [⟨start, isWordStart, some word⟩,
   ⟨word, isWordPart, some word⟩,
   ⟨start, Char.isDigit, some integer⟩,
   ⟨integer, Char.isDigit, some integer⟩,
   ⟨integerDot, Char.isDigit, some fraction⟩,
   ⟨fraction, Char.isDigit, some fraction⟩,
   ⟨exponent, Char.isDigit, some exponentDigits⟩,
   ⟨exponentSign, Char.isDigit, some exponentDigits⟩,
   ⟨exponentDigits, Char.isDigit, some exponentDigits⟩,
   ⟨hexPrefix, isHexDigit, some hex⟩,
   ⟨hex, isHexDigit, some hex⟩,
   ⟨octalPrefix, isOctalDigit, some octal⟩,
   ⟨octal, isOctalDigit, some octal⟩,
   ⟨binaryPrefix, isBinaryDigit, some binary⟩,
   ⟨binary, isBinaryDigit, some binary⟩,
   ⟨str, fun _ => true, some str⟩,
   ⟨lineComment, fun _ => true, some lineComment⟩,
   ⟨blockComment, fun _ => true, some blockComment⟩,
   ⟨integer, (· = '.'), some integerDot⟩,
   ⟨integerDot, (· = '.'), none⟩,
   ⟨integer, isExponentMark, some exponent⟩,
   ⟨fraction, isExponentMark, some exponent⟩,
   ⟨exponent, isSign, some exponentSign⟩,
   ⟨start, (· = '$'), some hexPrefix⟩,
   ⟨start, (· = '&'), some octalPrefix⟩,
   ⟨start, (· = '%'), some binaryPrefix⟩,
   ⟨start, isBlank, some blank⟩,
   ⟨blank, isBlank, some blank⟩,
   ⟨start, (· = '\''), some str⟩,
   ⟨str, (· = '\''), some strQuote⟩,
   ⟨strQuote, (· = '\''), some str⟩,
   ⟨start, (· = '/'), some slash⟩,
   ⟨slash, (· = '/'), some lineComment⟩,
   ⟨slash, (· = '='), some symbol⟩,
   ⟨lineComment, (· = '\n'), none⟩,
   ⟨start, (· = '\x7b'), some blockComment⟩,
   ⟨blockComment, (· = '\x7d'), some blockCommentEnd⟩,
   ⟨start, isOperator, some operator⟩,
   ⟨operator, (· = '='), some symbol⟩,
   ⟨start, (· = '<'), some less⟩,
   ⟨less, (· = '>'), some symbol⟩,
   ⟨less, (· = '='), some symbol⟩,
   ⟨start, (· = '.'), some dot⟩,
   ⟨dot, (· = '.'), some doubleDot⟩,
   ⟨start, isClosed, some symbol⟩]

/-- What the table has in a row and a column: a byte is the character of its number. -/
def table (s : State) (b : UInt8) : Option State :=
  (writes.filter fun w => w.row = s).foldl
    (fun t w => if w.columns (Char.ofNat b.toNat) then w.state else t) none

/-- The ways out of a state: the characters of each and the state it leads to. -/
def edges : State → List ((Char → Bool) × State)
  | start =>
    [(isWordStart, word), (Char.isDigit, integer), ((· = '$'), hexPrefix),
     ((· = '&'), octalPrefix), ((· = '%'), binaryPrefix), (isBlank, blank), ((· = '\''), str),
     ((· = '/'), slash), ((· = '\x7b'), blockComment), (isOperator, operator), ((· = '<'), less),
     ((· = '.'), dot), (isClosed, symbol)]
  | blank => [(isBlank, blank)]
  | word => [(isWordPart, word)]
  | integer => [(Char.isDigit, integer), ((· = '.'), integerDot), (isExponentMark, exponent)]
  | integerDot => [(Char.isDigit, fraction)]
  | fraction => [(Char.isDigit, fraction), (isExponentMark, exponent)]
  | exponent => [(Char.isDigit, exponentDigits), (isSign, exponentSign)]
  | exponentSign => [(Char.isDigit, exponentDigits)]
  | exponentDigits => [(Char.isDigit, exponentDigits)]
  | hexPrefix => [(isHexDigit, hex)]
  | hex => [(isHexDigit, hex)]
  | octalPrefix => [(isOctalDigit, octal)]
  | octal => [(isOctalDigit, octal)]
  | binaryPrefix => [(isBinaryDigit, binary)]
  | binary => [(isBinaryDigit, binary)]
  | str => [((· ≠ '\''), str), ((· = '\''), strQuote)]
  | strQuote => [((· = '\''), str)]
  | slash => [((· = '/'), lineComment), ((· = '='), symbol)]
  | lineComment => [((· ≠ '\n'), lineComment)]
  | blockComment => [((· ≠ '\x7d'), blockComment), ((· = '\x7d'), blockCommentEnd)]
  | blockCommentEnd => []
  | operator => [((· = '='), symbol)]
  | less => [((· = '>'), symbol), ((· = '='), symbol)]
  | dot => [((· = '.'), doubleDot)]
  | doubleDot => []
  | symbol => []

/-- Where a character leads. -/
def after (s : State) (c : Char) : Option State := (s.edges.find? fun e => e.1 c).map Prod.snd

/-- The states whose row is written in all columns at once. -/
def Loops (s : State) : Prop := s = str ∨ s = lineComment ∨ s = blockComment

instance : DecidablePred Loops := fun _ => inferInstanceAs (Decidable (_ ∨ _ ∨ _))

/-- Every state. -/
def all : List State :=
  [start, blank, word, integer, integerDot, fraction, exponent, exponentSign, exponentDigits,
   hexPrefix, hex, octalPrefix, octal, binaryPrefix, binary, str, strQuote, slash, lineComment,
   blockComment, blockCommentEnd, operator, less, dot, doubleDot, symbol]

theorem mem_all (s : State) : s ∈ all := by cases s <;> decide

/-- The state that a text leads to. -/
def run (s : State) (w : List Char) : Option State := w.foldlM after s

/-- Where a walk over bytes stops, and how many of them it takes. -/
def walkBytes (s : State) : List UInt8 → State × Nat
  | [] => (s, 0)
  | b :: bs =>
    match s.table b with
    | none => (s, 0)
    | some t => ((walkBytes t bs).1, (walkBytes t bs).2 + 1)

/-- The piece `w` of a text is read from one state to another, and it is all that can be read. -/
structure Stops (s : State) (text : List Char) (t : State) (w rest : List Char) : Prop where
  append : w ++ rest = text
  run : s.run w = some t
  stuck : ∀ c ∈ rest.head?, t.after c = none

end State

/-- The bytes of a text. -/
def encode (text : List Char) : List UInt8 := text.flatMap String.utf8EncodeChar

/-- A text split behind a number of its bytes, if a character ends there. -/
def splitBytes : Nat → List Char → Option (List Char × List Char)
  | 0, text => some ([], text)
  | _ + 1, [] => none
  | n + 1, c :: text =>
    if c.utf8Size ≤ n + 1 then
      (splitBytes (n + 1 - c.utf8Size) text).map fun (w, rest) => (c :: w, rest)
    else none

/-- The value of what stands behind the mark of an exponent. -/
def exponentValue : List Char → Int
  | '-' :: ds => -(ofDigits 10 ds : Int)
  | '+' :: ds => ofDigits 10 ds
  | ds => ofDigits 10 ds

/-- The value of a decimal number with a point, an exponent, or both. -/
def decimal (text : List Char) : Double :=
  let whole := text.takeWhile Char.isDigit
  match text.dropWhile Char.isDigit with
  | '.' :: more =>
    Mantissa.scaled ⟨whole, more.takeWhile Char.isDigit⟩
      (exponentValue (more.dropWhile Char.isDigit).tail)
  | more => Mantissa.scaled ⟨whole, []⟩ (exponentValue more.tail)

/-- What has been read when the automaton has stopped in a state behind the piece `text`. There is
no answer at the end of the text, and none for a symbol that is not in the list of symbols. -/
def accept (s : State) (text rest : List Char) : Option Cut :=
  match s with
  | .start => rest.head?.map fun c => ⟨.failure (.unknownSymbol c), [c], rest.tail⟩
  | .blank => some ⟨.blanks, text, rest⟩
  | .integerDot => some ⟨Token.integer 10 text.dropLast, text.dropLast, '.' :: rest⟩
  | .word =>
    let kind := match Keyword.ofName? ⟨String.ofList text⟩ with
      | some k => Kind.keyword k
      | none => .identifier
    some ⟨.token kind .plain, text, rest⟩
  | .integer => some ⟨Token.integer 10 text, text, rest⟩
  | .hex => some ⟨Token.integer 16 text.tail, text, rest⟩
  | .octal => some ⟨Token.integer 8 text.tail, text, rest⟩
  | .binary => some ⟨Token.integer 2 text.tail, text, rest⟩
  | .fraction => some ⟨.token .double (.fraction (decimal text)), text, rest⟩
  | .exponentDigits => some ⟨.token .double (.scientific (decimal text)), text, rest⟩
  | .exponent | .exponentSign | .hexPrefix | .octalPrefix | .binaryPrefix =>
    some ⟨.failure (.malformedNumber (String.ofList text)), text, rest⟩
  | .strQuote =>
    some ⟨.token .string (.string (String.ofList (unquote text.tail.dropLast))), text, rest⟩
  | .str => some ⟨.failure .unterminatedString, text, rest⟩
  | .blockComment => some ⟨.failure .unterminatedComment, text, rest⟩
  | .lineComment | .blockCommentEnd => some ⟨.token .comment .plain, text, rest⟩
  | .slash | .operator | .less | .dot | .doubleDot | .symbol =>
    (Symbol.ofChars? text).map fun s => ⟨.token (.symbol s) .plain, text, rest⟩

/-- One run of the automaton over the bytes of a text. -/
def automaton (text : List Char) : Option Cut :=
  let (s, n) := State.start.walkBytes (encode text)
  (splitBytes n text).bind fun (w, rest) => accept s w rest

/-! ### The table by characters -/

namespace State

variable {s t u : State} {c : Char} {p : Char → Bool} {v w text rest : List Char}

theorem table_ascii : ∀ s ∈ all, ∀ n < 128, s.table (UInt8.ofNat n) = s.after (Char.ofNat n) := by
  decide +kernel

theorem table_high : ∀ s ∈ all, ∀ n < 256, 128 ≤ n →
    s.table (UInt8.ofNat n) = if s.Loops then some s else none := by
  decide +kernel

theorem edges_ascii : ∀ s ∈ all, ∀ n < 128, ∀ e ∈ s.edges, e.1 (Char.ofNat n) = true →
    s.after (Char.ofNat n) = some e.2 := by
  decide +kernel

/-- What starts a word and the digits of all bases are parts of words. -/
theorem isWordPart_of (h : isWordStart c = true ∨ c.isDigit = true ∨ isHexDigit c = true ∨
    isOctalDigit c = true ∨ isBinaryDigit c = true) : isWordPart c = true := by
  simp only [isWordStart, isHexDigit, isOctalDigit, isBinaryDigit, isWordPart, Char.isAlphanum,
    Char.isAlpha, Char.isUpper, Char.isLower, Char.isDigit, Char.le_def, UInt32.le_iff_toNat_le,
    ge_iff_le, Bool.or_eq_true, Bool.and_eq_true, decide_eq_true_eq, UInt32.reduceToNat,
    Char.reduceVal] at h ⊢
  -- all classes are ranges of code points but for the two binary digits
  have hzero : c = '0' → c.val.toNat = 48 := by
    rintro rfl
    rfl
  have hone : c = '1' → c.val.toNat = 49 := by
    rintro rfl
    rfl
  grind

/-- A character behind ASCII is in none of the classes. -/
structure High (c : Char) : Prop where
  ne : ∀ d : Char, d.toNat < 128 → (c = d) = False
  part : isWordPart c = false
  first : isWordStart c = false
  digit : c.isDigit = false
  hex : isHexDigit c = false
  octal : isOctalDigit c = false
  binary : isBinaryDigit c = false

theorem high_of_le (h : 128 ≤ c.toNat) : High c := by
  have hne : ∀ d : Char, d.toNat < 128 → c ≠ d := by
    rintro d hd rfl
    omega
  have hpart : isWordPart c = false := by
    have hval : 128 ≤ c.val.toNat := h
    simp [isWordPart, Char.isAlphanum, Char.isAlpha, Char.isUpper, Char.isLower, Char.isDigit,
      UInt32.le_iff_toNat_le, hne '_' (by decide)]
    omega
  have hnot : ∀ p : Char → Bool, (p c = true → isWordPart c = true) → p c = false := by
    intro p hp
    rw [Bool.eq_false_iff]
    intro hc
    rw [hp hc] at hpart
    cases hpart
  exact {
    ne := fun d hd => eq_false (hne d hd)
    part := hpart
    first := hnot _ fun hc => isWordPart_of (.inl hc)
    digit := hnot _ fun hc => isWordPart_of (.inr (.inl hc))
    hex := hnot _ fun hc => isWordPart_of (.inr (.inr (.inl hc)))
    octal := hnot _ fun hc => isWordPart_of (.inr (.inr (.inr (.inl hc))))
    binary := hnot _ fun hc => isWordPart_of (.inr (.inr (.inr (.inr hc)))) }

theorem High.after (h : High c) : s.after c = if s.Loops then some s else none := by
  cases s <;> simp (disch := decide) [State.after, edges, Loops, isBlank, isExponentMark, isSign,
    isOperator, isClosed, h.ne, h.part, h.first, h.digit, h.hex, h.octal, h.binary]

theorem High.edges (h : High c) : ∀ e ∈ s.edges, e.1 c = true → s.after c = some e.2 := by
  cases s <;> simp (disch := decide) [State.after, State.edges, isBlank, isExponentMark, isSign,
    isOperator, isClosed, h.ne, h.part, h.first, h.digit, h.hex, h.octal, h.binary]

/-- An edge leads where it says: no character is on two edges out of a state. -/
theorem after_of_edge {e : (Char → Bool) × State} (he : e ∈ s.edges) (hc : e.1 c = true) :
    s.after c = some e.2 := by
  by_cases h : c.toNat < 128
  · have hs := edges_ascii s (mem_all s) c.toNat h e he
    rw [Char.ofNat_toNat] at hs
    exact hs hc
  · exact (high_of_le (Nat.le_of_not_lt h)).edges e he hc

theorem exists_edge (h : s.after c = some t) : ∃ p, (p, t) ∈ s.edges ∧ p c = true := by
  obtain ⟨⟨p, u⟩, he, rfl⟩ := Option.map_eq_some_iff.1 h
  have hc := List.find?_some he
  exact ⟨p, List.mem_of_find?_eq_some he, hc⟩

/-! ### Walks -/

@[simp] theorem run_nil : s.run [] = some s := rfl

@[simp] theorem run_cons : s.run (c :: w) = (s.after c).bind (run · w) := rfl

theorem run_append : s.run (v ++ w) = (s.run v).bind (run · w) := List.foldlM_append

theorem exists_stops (s : State) (text : List Char) : ∃ t w rest, Stops s text t w rest := by
  induction text generalizing s with
  | nil => exact ⟨s, [], [], rfl, rfl, nofun⟩
  | cons c text ih =>
    cases hc : s.after c with
    | none =>
      refine ⟨s, [], c :: text, rfl, rfl, ?_⟩
      rintro _ ⟨⟩
      exact hc
    | some t =>
      obtain ⟨u, w, rest, happend, hrun, hstuck⟩ := ih t
      refine ⟨u, c :: w, rest, congrArg (c :: ·) happend, ?_, hstuck⟩
      rw [run_cons, hc]
      exact hrun

/-- Nothing longer can be read than what a walk reads. -/
theorem Stops.maximal (h : Stops s text t w rest) {u : State} {v more : List Char}
    (hv : v ++ more = text) (hrun : s.run v = some u) : v.length ≤ w.length := by
  by_contra hlt
  rw [Nat.not_le] at hlt
  -- a longer piece goes on with the very character that stops the walk
  have hsplit : ∃ c v', v = w ++ c :: v' ∧ rest.head? = some c := by
    rcases List.append_eq_append_iff.1 (hv.trans h.append.symm) with ⟨a, rfl, -⟩ | ⟨a, rfl, ha⟩
    · rw [List.length_append] at hlt
      omega
    · cases a with
      | nil =>
        rw [List.append_nil] at hlt
        omega
      | cons c a =>
        refine ⟨c, a, rfl, ?_⟩
        rw [ha]
        rfl
  obtain ⟨c, v', rfl, hc⟩ := hsplit
  rw [run_append, h.run, Option.bind_some, run_cons, h.stuck c hc] at hrun
  cases hrun

theorem utf8_ascii (h : c.toNat < 128) :
    String.utf8EncodeChar c = [UInt8.ofNat c.toNat] := by
  have hval : c.val.toNat ≤ 127 := Nat.le_of_lt_succ h
  unfold String.utf8EncodeChar
  rw [if_pos hval]
  rfl

theorem utf8_high (h : 128 ≤ c.toNat) :
    ∀ b ∈ String.utf8EncodeChar c, ∃ n < 256, 128 ≤ n ∧ b = UInt8.ofNat n := by
  have hval : ¬ c.val.toNat ≤ 127 := Nat.not_le_of_lt h
  -- every byte is a mark of at least 128 and some bits of the code point below it
  have hbyte : ∀ m k : Nat, 128 ≤ k → m + k < 256 →
      ∃ n < 256, 128 ≤ n ∧ UInt8.ofNat (m + k) = UInt8.ofNat n :=
    fun m k hk hlt => ⟨m + k, hlt, by omega, rfl⟩
  unfold String.utf8EncodeChar
  rw [if_neg hval]
  split
  · simp only [List.forall_mem_cons]
    exact ⟨hbyte _ _ (by omega) (by omega), hbyte _ _ (by omega) (by omega), nofun⟩
  split
  · simp only [List.forall_mem_cons]
    exact ⟨hbyte _ _ (by omega) (by omega), hbyte _ _ (by omega) (by omega),
      hbyte _ _ (by omega) (by omega), nofun⟩
  · simp only [List.forall_mem_cons]
    exact ⟨hbyte _ _ (by omega) (by omega), hbyte _ _ (by omega) (by omega),
      hbyte _ _ (by omega) (by omega), hbyte _ _ (by omega) (by omega), nofun⟩

theorem walkBytes_loop (hs : s.Loops) {as : List UInt8} (bs : List UInt8)
    (h : ∀ b ∈ as, ∃ n < 256, 128 ≤ n ∧ b = UInt8.ofNat n) :
    walkBytes s (as ++ bs) = ((walkBytes s bs).1, (walkBytes s bs).2 + as.length) := by
  induction as with
  | nil => rfl
  | cons b as ih =>
    obtain ⟨⟨n, hn, hhigh, rfl⟩, has⟩ := List.forall_mem_cons.1 h
    rw [List.cons_append, walkBytes, table_high s (mem_all s) n hn hhigh, if_pos hs]
    dsimp only
    rw [ih has]
    rfl

/-- A walk over the bytes of a character goes where the character leads. -/
theorem walkBytes_char (bs : List UInt8) (h : s.after c = some t) :
    walkBytes s (String.utf8EncodeChar c ++ bs) =
      ((walkBytes t bs).1, (walkBytes t bs).2 + (String.utf8EncodeChar c).length) := by
  by_cases hc : c.toNat < 128
  · have htable := table_ascii s (mem_all s) c.toNat hc
    rw [Char.ofNat_toNat, h] at htable
    rw [utf8_ascii hc, List.singleton_append, walkBytes, htable]
    rfl
  · have hhigh := Nat.le_of_not_lt hc
    rw [(high_of_le hhigh).after] at h
    split at h
    · rename_i hs
      cases h
      exact walkBytes_loop hs bs (utf8_high hhigh)
    · cases h

theorem walkBytes_stuck (bs : List UInt8) (h : s.after c = none) :
    walkBytes s (String.utf8EncodeChar c ++ bs) = (s, 0) := by
  by_cases hc : c.toNat < 128
  · have htable := table_ascii s (mem_all s) c.toNat hc
    rw [Char.ofNat_toNat, h] at htable
    rw [utf8_ascii hc, List.singleton_append, walkBytes, htable]
  · have hhigh := Nat.le_of_not_lt hc
    rw [(high_of_le hhigh).after] at h
    split at h
    · cases h
    · rename_i hs
      -- the first byte of the character leads nowhere already
      obtain ⟨b, as, hbytes⟩ := List.exists_cons_of_ne_nil (String.utf8EncodeChar_ne_nil (c := c))
      have hb := utf8_high hhigh b
      rw [hbytes] at hb ⊢
      obtain ⟨n, hn, hle, rfl⟩ := hb List.mem_cons_self
      rw [List.cons_append, walkBytes, table_high s (mem_all s) n hn hle, if_neg hs]

/-- A walk over the bytes of a text stops where a walk along edges does. -/
theorem walkBytes_encode (h : Stops s text t w rest) :
    walkBytes s (encode text) = (t, (encode w).length) := by
  obtain ⟨rfl, hrun, hstuck⟩ := h
  induction w generalizing s with
  | nil =>
    cases hrun
    cases rest with
    | nil => rfl
    | cons c rest => exact walkBytes_stuck (encode rest) (hstuck c rfl)
  | cons c w ih =>
    rw [run_cons] at hrun
    obtain ⟨u, hc, hrun⟩ := Option.bind_eq_some_iff.1 hrun
    have hencode : ∀ v, encode (c :: v) = String.utf8EncodeChar c ++ encode v := fun _ => rfl
    rw [List.cons_append, hencode, walkBytes_char _ hc, ih hrun, hencode, List.length_append,
      Nat.add_comm]

end State

theorem splitBytes_encode (w rest : List Char) :
    splitBytes (encode w).length (w ++ rest) = some (w, rest) := by
  induction w with
  | nil =>
    show splitBytes 0 rest = some ([], rest)
    rw [splitBytes]
  | cons c w ih =>
    have hencode : (encode (c :: w)).length = c.utf8Size + (encode w).length := by
      show (String.utf8EncodeChar c ++ encode w).length = _
      rw [List.length_append, String.length_utf8EncodeChar]
    have hpos := c.utf8Size_pos
    obtain ⟨n, hn⟩ : ∃ n, c.utf8Size + (encode w).length = n + 1 :=
      ⟨c.utf8Size + (encode w).length - 1, by omega⟩
    have hrest : n + 1 - c.utf8Size = (encode w).length := by omega
    rw [hencode, hn, List.cons_append, splitBytes, if_pos (by omega), hrest, ih]
    rfl

/-- A run is a walk along the edges and what the state says that it stops in. -/
theorem automaton_eq {text w rest : List Char} {s : State}
    (h : State.start.Stops text s w rest) : automaton text = accept s w rest := by
  unfold automaton
  rw [State.walkBytes_encode h, ← h.append]
  dsimp only
  rw [splitBytes_encode]
  rfl

end MiniPascal.Token
