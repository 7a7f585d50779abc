import MiniPascal.Proofs.Printing.Cursor
import MiniPascal.Proofs.Recoding.Located
import MiniPascal.Proofs.Token.Separators

/-! Tokens made to be printed, and the text of some tokens. -/

namespace MiniPascal

open Computability

namespace Token

open State

/-! ### Tokens -/

def ofSymbol (s : Symbol) : Token := ⟨.start, .symbol s, String.ofList s.chars, .plain⟩

def ofKeyword (k : Keyword) : Token := ⟨.start, .keyword k, k.spelling, .plain⟩

def ofName (n : Name) : Token := ⟨.start, .identifier, n.spelling, .plain⟩

/-- An integer in decimal notation. -/
def ofNat (n : Nat) : Token := ⟨.start, .integer, String.ofList (Nat.toDigits 10 n), .integer n⟩

/-- The inside of a string: quotes are doubled. -/
def doubled : List Char → List Char
  | [] => []
  | c :: cs => if c = '\'' then '\'' :: '\'' :: doubled cs else c :: doubled cs

/-- A string in quotes. -/
def ofString (s : String) : Token :=
  ⟨.start, .string, String.ofList ('\'' :: doubled s.toList ++ ['\'']), .string s⟩

theorem kind_symbol_ne {a b : Symbol} (h : a ≠ b) : Kind.symbol a ≠ .symbol b := by
  intro he
  cases he
  exact h rfl

/-! ### What they are read as -/

theorem ofSymbol_alone (s : Symbol) : (ofSymbol s).Alone := by
  unfold Alone ofSymbol
  rw [String.toList_ofList]
  cases s <;> exact ⟨_, rfl, rfl⟩

/-- A word is a keyword or an identifier. -/
theorem word_alone {n : Name} {kind : Kind} (hw : n.spelling.toList ∈ words)
    (hkind : ((Keyword.ofName? n).map Kind.keyword).getD .identifier = kind) :
    Alone ⟨.start, kind, n.spelling, .plain⟩ := by
  have hrun : start.run n.spelling.toList = some .word := run_start.2 hw
  refine ⟨.word, hrun, ?_⟩
  have hname : (⟨String.ofList n.spelling.toList⟩ : Name) = n := by rw [String.ofList_toList]
  rw [accept, hname, ← hkind]
  cases Keyword.ofName? n <;> rfl

theorem ofKeyword_alone (k : Keyword) : (ofKeyword k).Alone := by
  have hrun : start.run k.spelling.toList = some .word := by
    cases k <;> decide
  have hname : Keyword.ofName? ⟨k.spelling⟩ = some k := by
    cases k <;> decide
  apply word_alone (n := ⟨k.spelling⟩) (run_start.1 hrun)
  rw [hname]
  rfl

end Token

/-- The name can be written: it is a word and no keyword. -/
structure Name.IsIdentifier (n : Name) : Prop where
  word : n.spelling.toList ∈ Token.words
  free : Keyword.ofName? n = none

namespace Token

open State

theorem ofName_alone {n : Name} (h : n.IsIdentifier) : (ofName n).Alone := by
  apply word_alone h.word
  rw [h.free]
  rfl

theorem ofDigits_toDigits (n : Nat) : ofDigits 10 (Nat.toDigits 10 n) = n := by
  have hfold : ∀ (ds : List Char) (m : Nat), (∀ d ∈ ds, d.isDigit = true) →
      ds.foldl (fun n d => n * 10 + digitValue d) m = Nat.ofDigitChars 10 ds m := by
    intro ds
    induction ds with
    | nil => exact fun _ _ => rfl
    | cons d ds ih =>
      intro m hds
      obtain ⟨hd, hds⟩ := List.forall_mem_cons.1 hds
      have hvalue : m * 10 + digitValue d = 10 * m + (d.toNat - '0'.toNat) := by
        rw [digitValue, if_pos hd, Nat.mul_comm]
      rw [List.foldl_cons, hvalue, ih _ hds]
      rfl
  have hdigits : ∀ d ∈ Nat.toDigits 10 n, d.isDigit = true := by
    intro d hd
    exact Nat.isDigit_of_mem_toDigits (by decide) (by decide) hd
  rw [ofDigits, hfold _ _ hdigits, Nat.ofDigitChars_ten_toDigits]

theorem ofNat_alone {n : Nat} (h : n < UInt64.size) : (ofNat n).Alone := by
  have hdigits : Nat.toDigits 10 n ∈ many Char.isDigit := by
    apply mem_many.2 ⟨Nat.toDigits_ne_nil, ?_⟩
    intro d hd
    exact Nat.isDigit_of_mem_toDigits (by decide) (by decide) hd
  unfold Alone ofNat
  rw [String.toList_ofList]
  have hrun : start.run (Nat.toDigits 10 n) = some .integer := run_start.2 hdigits
  refine ⟨.integer, hrun, ?_⟩
  simp only [accept, Token.integer, ofDigits_toDigits, if_pos h]

theorem cons_mem_star {l : Language Char} {v w : List Char} (hw : w ∈ l) (hv : v ∈ l∗) :
    w ++ v ∈ l∗ :=
  Set.mem_of_mem_of_subset (Language.append_mem_mul hw hv) (mul_kstar_le_kstar (a := l))

theorem doubled_mem_quotes (cs : List Char) : doubled cs ∈ quotes := by
  induction cs with
  | nil => exact Language.nil_mem_kstar _
  | cons c cs ih =>
    have hcons : ∀ w ∈ one (· ≠ '\'') + {['\'', '\'']}, w ++ doubled cs ∈ quotes := by
      intro w hw
      exact cons_mem_star hw ih
    rw [doubled]
    split
    · exact hcons ['\'', '\''] (.inr rfl)
    · rename_i hc
      exact hcons [c] (.inl (mem_one_of (decide_eq_true hc)))

theorem unquote_doubled (cs : List Char) : unquote (doubled cs) = cs := by
  induction cs with
  | nil => rfl
  | cons c cs ih =>
    rw [doubled]
    split
    · rename_i hc
      rw [unquote, ih, hc]
    · rename_i hc
      rw [unquote, ih]
      intro ds hquote
      exact absurd hquote hc

theorem ofString_run (s : String) :
    start.run ('\'' :: doubled s.toList ++ ['\'']) = some .strQuote := by
  have hmem : '\'' :: doubled s.toList ++ ['\''] ∈ strings :=
    Language.append_mem_mul (Language.append_mem_mul (Set.mem_singleton ['\''])
      (doubled_mem_quotes s.toList)) (Set.mem_singleton _)
  exact run_start.2 hmem

theorem ofString_alone (s : String) : (ofString s).Alone := by
  unfold Alone ofString
  rw [String.toList_ofList]
  refine ⟨.strQuote, ofString_run s, ?_⟩
  have hinside : ('\'' :: doubled s.toList ++ ['\'']).tail.dropLast = doubled s.toList := by simp
  simp only [accept, hinside, unquote_doubled, String.ofList_toList]

/-- A token that is read where it is printed. -/
structure Printable (t : Token) : Prop where
  alone : t.Alone
  comment : t.kind ≠ .comment
  position : t.position = .start

theorem Printable.endOfFile {t : Token} (h : t.Printable) : t.kind ≠ .endOfFile := by
  obtain ⟨s, -, haccept⟩ := h.alone
  exact accept_ne_endOfFile haccept

theorem ofSymbol_printable (s : Symbol) : (ofSymbol s).Printable := ⟨ofSymbol_alone s, nofun, rfl⟩

theorem ofKeyword_printable (k : Keyword) : (ofKeyword k).Printable :=
  ⟨ofKeyword_alone k, nofun, rfl⟩

theorem ofName_printable {n : Name} (h : n.IsIdentifier) : (ofName n).Printable :=
  ⟨ofName_alone h, nofun, rfl⟩

theorem ofNat_printable {n : Nat} (h : n < UInt64.size) : (ofNat n).Printable :=
  ⟨ofNat_alone h, nofun, rfl⟩

theorem ofString_printable (s : String) : (ofString s).Printable :=
  ⟨ofString_alone s, nofun, rfl⟩

/-! ### Texts -/

/-- The text of tokens, with a blank between any two of them. -/
def printed (ts : List Token) : String := " ".intercalate (ts.map Token.text)

theorem printed_cons {t u : Token} {ts : List Token} :
    (printed (t :: u :: ts)).toList = t.text.toList ++ ' ' :: (printed (u :: ts)).toList := by
  simp [printed, String.toList_intercalate, List.intercalate]

theorem printed_singleton (t : Token) : printed [t] = t.text := by
  simp [printed]

end Token

/-- Forgets all positions. -/
def Recoding.erasing : Recoding := placing fun _ => .start

theorem Recoding.name_erasing (n : Name) : erasing.name n = n := name_placing _ n

open Token Recoding

theorem Token.Printable.erasing {t : Token} (h : t.Printable) (p : Position) :
    erasing.token { t with position := p } = t := by
  have htoken := token_placing (fun _ => .start) h.alone p
  have hplace : { t with position := .start } = t := by rw [← h.position]
  rwa [hplace] at htoken

/-- Reading the text of tokens gives these tokens, at other places, and then what follows. -/
theorem Token.scanFrom_printed {ts : List Token} {p : Position} {more : List Char} (hne : ts ≠ [])
    (hts : ∀ t ∈ ts, t.Printable) (hmore : ∀ c ∈ more.head?, isBlank c = true) :
    ∃ ts' : List Token, ts'.map erasing.token = ts ∧
      scanFrom false p ((printed ts).toList ++ more) =
        ts'.map .ok ++ scanFrom false (p.afterAll (printed ts).toList) more := by
  induction ts generalizing p with
  | nil => exact absurd rfl hne
  | cons t ts ih =>
    obtain ⟨ht, hus⟩ := List.forall_mem_cons.1 hts
    cases ts with
    | nil =>
      refine ⟨[{ t with position := p }], ?_, ?_⟩
      · rw [List.map_singleton, ht.erasing]
      · rw [printed_singleton]
        exact scanFrom_token ht.alone ht.comment hmore
    | cons u us =>
      obtain ⟨ts', herased, hscan⟩ :=
        ih (p := (p.afterAll t.text.toList).after ' ') (List.cons_ne_nil u us) hus
      -- a blank stands between a token and the next
      have hblank : ∀ c ∈ (' ' :: ((printed (u :: us)).toList ++ more)).head?,
          isBlank c = true := by
        intro c hc
        obtain rfl := Option.some.inj hc
        rfl
      refine ⟨{ t with position := p } :: ts', ?_, ?_⟩
      · rw [List.map_cons, ht.erasing, herased]
      · rw [printed_cons, List.append_assoc, List.cons_append,
          scanFrom_token ht.alone ht.comment hblank, scanFrom_blank rfl, hscan,
          Position.afterAll_append]
        rfl

/-- The cursor in front of a text whose first character stands at a position. -/
def Cursor.onText (p : Position) (text : List Char) (stop : Position) : Read Cursor :=
  advance ⟨.endOfFile stop, scanFrom false p text, stop⟩

namespace Cursor

variable {c d : Cursor} {ts : List Token} {p stop : Position} {text : List Char}

/-- Nothing follows the end of a text. -/
theorem onText_nil (p stop : Position) : onText p [] stop = .ok ⟨.endOfFile stop, [], stop⟩ := by
  rw [onText, scanFrom]
  rfl

theorem results_of_kind (h : c.current.kind ≠ .endOfFile) :
    c.results = .ok c.current :: c.pending := by
  have hend : c.current ≠ .endOfFile c.stop := by
    intro heq
    rw [heq] at h
    exact h rfl
  simp [results, hend]

theorem results_behind (h : ∀ t ∈ ts, t.kind ≠ .endOfFile) :
    (c.behind ts).results = ts.map .ok ++ c.results := by
  induction ts with
  | nil => rfl
  | cons t ts ih =>
    obtain ⟨ht, hts⟩ := List.forall_mem_cons.1 h
    have hcurrent : (c.behind (t :: ts)).current.kind ≠ .endOfFile := ht
    have hpending : (c.behind (t :: ts)).pending = ts.map .ok ++ c.results := ih hts
    rw [results_of_kind hcurrent, hpending]
    rfl

/-- A cursor on a text has the results of the text, also where all positions are forgotten. -/
theorem results_onText (h : onText p text stop = .ok d) :
    d.stop = stop ∧ d.results = scanFrom false p text ∧
      (erasing.cursor d).results = (scanFrom false p text).map erasing.result := by
  unfold onText advance at h
  dsimp only at h
  split at h
  · rename_i hscan
    cases h
    rw [hscan]
    have hend : erasing.token (.endOfFile stop) = .endOfFile (erasing.position stop) :=
      erasing.token_endOfFile stop
    refine ⟨rfl, ?_, ?_⟩
    · simp [results]
    · simp [results, cursor, hend]
  · rename_i t rs hscan
    cases h
    have hmem : .ok t ∈ scanFrom false p text := by
      rw [hscan]
      exact List.mem_cons_self
    have hkind : t.kind ≠ .endOfFile := by
      obtain ⟨s, -, haccept⟩ := alone_of_mem_scanFrom hmem
      exact accept_ne_endOfFile haccept
    rw [hscan]
    exact ⟨rfl, results_of_kind hkind, results_of_kind hkind⟩
  · cases h

/-- A cursor on the text of some tokens is on these tokens, in front of a cursor on what follows
them. -/
theorem onText_printed {more : List Char} (hne : ts ≠ []) (hts : ∀ t ∈ ts, t.Printable)
    (hmore : ∀ c ∈ more.head?, isBlank c = true)
    (hd : onText (p.afterAll (printed ts).toList) more stop = .ok d) :
    ∃ c, onText p ((printed ts).toList ++ more) stop = .ok c ∧
      erasing.cursor c = (erasing.cursor d).behind ts := by
  obtain ⟨hstop, -, hresults⟩ := results_onText hd
  obtain ⟨ts', herased, hscan⟩ := scanFrom_printed (p := p) hne hts hmore
  generalize p.afterAll (printed ts).toList = q at hd hresults hscan
  cases ts' with
  | nil => exact absurd herased.symm hne
  | cons t' ts' =>
    rw [List.map_cons] at herased
    subst herased
    obtain ⟨-, hus⟩ := List.forall_mem_cons.1 hts
    have hkinds : ∀ u ∈ ts'.map erasing.token, u.kind ≠ .endOfFile := by
      intro u hu
      exact (hus u hu).endOfFile
    refine ⟨⟨t', ts'.map .ok ++ scanFrom false q more, stop⟩, ?_, ?_⟩
    · rw [onText, hscan]
      rfl
    · rw [behind_cons, push, results_behind hkinds, hresults, behind_stop]
      simp [cursor, hstop, result, Function.comp_def]

end Cursor

end MiniPascal
