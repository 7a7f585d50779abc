import MiniPascal.Proofs.Token.Alone
import MiniPascal.Proofs.Token.Pieces

/-! The automaton counts lines and columns over bytes in words of 32 bits: a byte that goes on with
a character takes no column. -/

namespace MiniPascal.Token

/-- The line and the column as words of 32 bits, which wrap around. -/
structure Counters where
  line : UInt32
  column : UInt32

namespace Counters

def start : Counters := ⟨1, 1⟩

/-- The position that the counters stand for. -/
def position (q : Counters) : Position := ⟨q.line.toNat, q.column.toNat⟩

/-- The counters behind a byte. -/
def bump (q : Counters) (b : UInt8) : Counters :=
  if b = 10 then ⟨q.line + 1, 1⟩
  else if b = 9 then ⟨q.line, 1 + ((q.column - 1) / 4 + 1) * 4⟩
  else if 0x80 ≤ b ∧ b ≤ 0xbf then q
  else ⟨q.line, q.column + 1⟩

/-- The counters one column before, never before the first. -/
def back (q : Counters) : Counters := ⟨q.line, if q.column ≤ 1 then 1 else q.column - 1⟩

/-- One run of the automaton: what it cuts off the text, and the counters behind that. The bytes of
a character with which no lexeme starts are read after the walk has stopped in front of them. -/
def read (q : Counters) (text : List Char) : Option (Cut × Counters) :=
  let (s, n) := State.start.walkBytes (encode text)
  let walked := ((encode text).take n).foldl bump q
  let behind := match s with
    | .start => (encode (text.take 1)).foldl bump walked
    | .integerDot => walked.back
    | _ => walked
  (automaton text).map fun cut => (cut, behind)

theorem read_lt {q q' : Counters} {text : List Char} {cut : Cut}
    (h : q.read text = some (cut, q')) : cut.rest.length < text.length := by
  obtain ⟨cut', hcut, hpair⟩ := Option.map_eq_some_iff.1 h
  obtain rfl : cut' = cut := congrArg Prod.fst hpair
  cases text with
  | nil => cases hcut
  | cons c cs =>
    rw [automaton_lexeme] at hcut
    obtain rfl := Option.some.inj hcut
    exact Nat.lt_succ_of_le (lexeme_rest_le c cs)

/-- Runs of the automaton up to the end of the text: the results, and the counters at the end. -/
def readAll (keep : Bool) (q : Counters) (text : List Char) : List Result × Counters :=
  match _ : q.read text with
  | none => ([], q)
  | some (cut, q') =>
    let (results, stop) := readAll keep q' cut.rest
    ((cut.result? keep q.position).toList ++ results, stop)
termination_by text.length
decreasing_by exact read_lt ‹_›

/-! ### Characters -/

/-- No counter runs over while so many characters are read. -/
structure Room (p : Position) (n : Nat) : Prop where
  line : p.line + n < 2 ^ 32
  column : p.column + 4 * n < 2 ^ 32
  pos : 1 ≤ p.column

variable {p : Position} {q : Counters} {n : Nat} {c : Char} {w text rest : List Char}

theorem Room.after (h : Room p (n + 1)) (c : Char) : Room (p.after c) n := by
  obtain ⟨hline, hcolumn, hpos⟩ := h
  unfold Position.after
  split
  · constructor
    · show p.line + 1 + n < 2 ^ 32
      omega
    · show 1 + 4 * n < 2 ^ 32
      omega
    · exact Nat.le_refl 1
  · split
    · have htab : p.tab.column = 1 + ((p.column - 1) / 4 + 1) * 4 := rfl
      constructor
      · show p.line + n < 2 ^ 32
        omega
      · omega
      · omega
    · constructor
      · show p.line + n < 2 ^ 32
        omega
      · show p.column + 1 + 4 * n < 2 ^ 32
        omega
      · exact Nat.le_succ_of_le hpos

theorem Room.afterAll (w : List Char) (h : Room p (w.length + n)) : Room (p.afterAll w) n := by
  induction w generalizing p with
  | nil => rwa [List.length_nil, Nat.zero_add] at h
  | cons c w ih =>
    have hfirst : w.length + 1 + n = w.length + n + 1 := by omega
    rw [List.length_cons, hfirst] at h
    exact ih (h.after c)

theorem toNat_succ {x : UInt32} (h : x.toNat + 1 < 2 ^ 32) : (x + 1).toNat = x.toNat + 1 := by
  rw [UInt32.toNat_add]
  exact Nat.mod_eq_of_lt h

theorem toNat_tab {x : UInt32} (hpos : 1 ≤ x.toNat) (h : x.toNat + 4 < 2 ^ 32) :
    (1 + ((x - 1) / 4 + 1) * 4).toNat = 1 + ((x.toNat - 1) / 4 + 1) * 4 := by
  have hsub : (x - 1).toNat = x.toNat - 1 := by
    apply UInt32.toNat_sub_of_le
    exact UInt32.le_iff_toNat_le.2 hpos
  simp only [UInt32.toNat_add, UInt32.toNat_mul, UInt32.toNat_div, UInt32.reduceToNat, hsub]
  omega

/-- A byte of ASCII counts as its character does. -/
theorem bump_ascii (h : Room q.position (n + 1)) (hc : c.toNat < 128) :
    (q.bump (UInt8.ofNat c.toNat)).position = q.position.after c := by
  obtain ⟨hline, hcolumn, hpos⟩ := h
  have hlineNat : q.position.line = q.line.toNat := rfl
  have hcolumnNat : q.position.column = q.column.toNat := rfl
  have hsize : c.toNat < UInt8.size := Nat.lt_trans hc (by decide)
  have hbyte : (UInt8.ofNat c.toNat).toNat = c.toNat := UInt8.toNat_ofNat_of_lt hsize
  -- the tests for single bytes are tests for single characters
  have hne : ∀ d : Char, d.toNat < 128 → c ≠ d → UInt8.ofNat c.toNat ≠ UInt8.ofNat d.toNat := by
    intro d hd hcd hsame
    apply hcd
    apply Char.toNat_inj.1
    have hd' : (UInt8.ofNat d.toNat).toNat = d.toNat :=
      UInt8.toNat_ofNat_of_lt (Nat.lt_trans hd (by decide))
    rw [← hbyte, hsame, hd']
  have hlow : ¬ (0x80 ≤ UInt8.ofNat c.toNat ∧ UInt8.ofNat c.toNat ≤ 0xbf) := by
    intro hrange
    have hle := UInt8.le_iff_toNat_le.1 hrange.1
    rw [hbyte] at hle
    exact absurd hc (Nat.not_lt_of_le hle)
  unfold bump Position.after
  by_cases hnewline : c = '\n'
  · subst hnewline
    have hsucc : (q.line + 1).toNat = q.line.toNat + 1 := toNat_succ (by omega)
    show (⟨(q.line + 1).toNat, 1⟩ : Position) = ⟨q.line.toNat + 1, 1⟩
    rw [hsucc]
  have hten : UInt8.ofNat c.toNat ≠ 10 := hne '\n' (by decide) hnewline
  rw [if_neg hten, if_neg hnewline]
  by_cases htab : c = '\t'
  · subst htab
    have hstop := toNat_tab (x := q.column) hpos (by omega)
    show (⟨q.line.toNat, (1 + ((q.column - 1) / 4 + 1) * 4).toNat⟩ : Position) =
      ⟨q.line.toNat, 1 + ((q.column.toNat - 1) / 4 + 1) * 4⟩
    rw [hstop]
  have hnine : UInt8.ofNat c.toNat ≠ 9 := hne '\t' (by decide) htab
  rw [if_neg hnine, if_neg htab, if_neg hlow]
  have hsucc : (q.column + 1).toNat = q.column.toNat + 1 := toNat_succ (by omega)
  show (⟨q.line.toNat, (q.column + 1).toNat⟩ : Position) = ⟨q.line.toNat, q.column.toNat + 1⟩
  rw [hsucc]

/-- A byte behind the first of a character counts for nothing. -/
theorem bump_inner {m : Nat} (hm : m < 64) : q.bump (UInt8.ofNat (m + 128)) = q := by
  have hinner : ∀ m < 64, UInt8.ofNat (m + 128) ≠ 10 ∧ UInt8.ofNat (m + 128) ≠ 9 ∧
      0x80 ≤ UInt8.ofNat (m + 128) ∧ UInt8.ofNat (m + 128) ≤ 0xbf := by decide
  obtain ⟨hten, hnine, hrange⟩ := hinner m hm
  unfold bump
  rw [if_neg hten, if_neg hnine, if_pos hrange]

/-- The first byte of a character of several bytes counts for a column. -/
theorem bump_first {m : Nat} (hm : m < 64) :
    q.bump (UInt8.ofNat (m + 192)) = ⟨q.line, q.column + 1⟩ := by
  have hfirst : ∀ m < 64, UInt8.ofNat (m + 192) ≠ 10 ∧ UInt8.ofNat (m + 192) ≠ 9 ∧
      ¬ (0x80 ≤ UInt8.ofNat (m + 192) ∧ UInt8.ofNat (m + 192) ≤ 0xbf) := by decide
  obtain ⟨hten, hnine, hrange⟩ := hfirst m hm
  unfold bump
  rw [if_neg hten, if_neg hnine, if_neg hrange]

theorem bump_high (hc : 128 ≤ c.toNat) :
    (String.utf8EncodeChar c).foldl bump q = ⟨q.line, q.column + 1⟩ := by
  have hval : ¬ c.val.toNat ≤ 127 := Nat.not_le_of_lt hc
  have hmod : ∀ a : Nat, a % 64 < 64 := fun a => Nat.mod_lt a (by decide)
  -- the leading bytes of longer characters lie further up
  have hfirst : ∀ m k : Nat, m + k < 64 →
      q.bump (UInt8.ofNat (m + (192 + k))) = ⟨q.line, q.column + 1⟩ := by
    intro m k hm
    have hsum : m + (192 + k) = m + k + 192 := by omega
    rw [hsum]
    exact bump_first hm
  unfold String.utf8EncodeChar
  dsimp only
  rw [if_neg hval]
  split
  · simp only [List.foldl_cons, List.foldl_nil]
    rw [hfirst _ 0 (by omega), bump_inner (hmod _)]
  split
  · simp only [List.foldl_cons, List.foldl_nil]
    rw [hfirst _ 32 (by omega), bump_inner (hmod _), bump_inner (hmod _)]
  · simp only [List.foldl_cons, List.foldl_nil]
    rw [hfirst _ 48 (by omega), bump_inner (hmod _), bump_inner (hmod _), bump_inner (hmod _)]

/-- The bytes of a character lead to the position behind the character. -/
theorem bump_char (h : Room q.position (n + 1)) (c : Char) :
    ((String.utf8EncodeChar c).foldl bump q).position = q.position.after c := by
  by_cases hc : c.toNat < 128
  · rw [State.utf8_ascii hc]
    exact bump_ascii h hc
  · have hhigh : 128 ≤ c.toNat := Nat.le_of_not_lt hc
    have hne : ∀ d : Char, d.toNat < 128 → c ≠ d := by
      intro d hd hcd
      rw [hcd] at hhigh
      omega
    have hsucc : (q.column + 1).toNat = q.column.toNat + 1 := by
      apply toNat_succ
      have hcolumn : q.column.toNat + 4 * (n + 1) < 2 ^ 32 := h.column
      omega
    rw [bump_high hhigh, Position.after, if_neg (hne '\n' (by decide)),
      if_neg (hne '\t' (by decide))]
    show (⟨q.line.toNat, (q.column + 1).toNat⟩ : Position) = ⟨q.line.toNat, q.column.toNat + 1⟩
    rw [hsucc]

/-- The bytes of a text lead to the position behind its characters. -/
theorem bump_encode (w : List Char) (h : Room q.position (w.length + n)) :
    ((encode w).foldl bump q).position = q.position.afterAll w := by
  induction w generalizing q with
  | nil => rfl
  | cons c w ih =>
    have hsplit : encode (c :: w) = String.utf8EncodeChar c ++ encode w := rfl
    have hfirst : w.length + 1 + n = w.length + n + 1 := by omega
    rw [List.length_cons, hfirst] at h
    have hchar := bump_char h c
    have hroom := h.after c
    rw [← hchar] at hroom
    rw [hsplit, List.foldl_append, ih hroom, hchar]
    rfl

/-! ### Runs -/

theorem encode_append (v w : List Char) : encode (v ++ w) = encode v ++ encode w :=
  List.flatMap_append

/-- Giving back the last character that was read leads in front of it, unless it is the first
of its line or a tab. -/
theorem back_position (hpos : 1 ≤ p.column) (h : q.position = p.advance) :
    q.back.position = p := by
  have hline : q.line.toNat = p.line := congrArg Position.line h
  have hcolumn : q.column.toNat = p.column + 1 := congrArg Position.column h
  have hfar : ¬ q.column ≤ 1 := by
    intro hle
    have hone : q.column.toNat ≤ 1 := UInt32.le_iff_toNat_le.1 hle
    omega
  have hsub : (q.column - 1).toNat = q.column.toNat - 1 := by
    apply UInt32.toNat_sub_of_le
    apply UInt32.le_iff_toNat_le.2
    show 1 ≤ q.column.toNat
    omega
  unfold back
  rw [if_neg hfar]
  show (⟨q.line.toNat, (q.column - 1).toNat⟩ : Position) = p
  rw [hsub, hline, hcolumn]
  rfl

/-- A run cuts off the lexeme and leaves the counters behind its characters. -/
theorem read_eq {cs : List Char} (h : Room q.position (cs.length + 1 + n)) :
    ∃ q', q.read (c :: cs) = some (lexeme c cs, q') ∧
      q'.position = q.position.afterAll (lexeme c cs).text := by
  obtain ⟨s, w, rest, hs⟩ := State.exists_stops .start (c :: cs)
  have hlength : w.length ≤ cs.length + 1 := by
    have hall := congrArg List.length hs.append
    rw [List.length_append, List.length_cons] at hall
    omega
  have htake : (encode (c :: cs)).take (encode w).length = encode w := by
    rw [← hs.append, encode_append]
    exact List.take_left
  have hroom : Room q.position (w.length + (cs.length + 1 - w.length + n)) := by
    have hsum : cs.length + 1 + n = w.length + (cs.length + 1 - w.length + n) := by omega
    rwa [hsum] at h
  have hwalked := bump_encode w hroom
  have haccept := accept_eq hs
  unfold read
  rw [State.walkBytes_encode hs, automaton_lexeme]
  dsimp only [Option.map_some]
  rw [htake]
  refine ⟨_, rfl, ?_⟩
  -- two states do not cut where the walk has ended: one takes more, one gives a point back
  cases s with
  | start =>
    obtain rfl : w = [] := State.run_start.1 hs.run
    obtain ⟨d, hd, hcut⟩ := Option.map_eq_some_iff.1 haccept
    obtain rfl : c = d := by
      rw [← List.nil_append rest, hs.append] at hd
      exact Option.some.inj hd
    have hfirst : Room q.position ([c].length + (cs.length + n)) := by
      have hsum : cs.length + 1 + n = 1 + (cs.length + n) := by omega
      rwa [hsum] at h
    rw [← hcut]
    exact bump_encode [c] hfirst
  -- a point without digits behind it
  | integerDot =>
    obtain ⟨ds, -, _, hdot, rfl⟩ := Language.mem_mul.1 (State.run_start.1 hs.run)
    obtain rfl := Set.mem_singleton_iff.1 hdot
    have hcut := Option.some.inj haccept
    rw [List.dropLast_concat] at hcut
    rw [Position.afterAll_append] at hwalked
    have hdigits : Room q.position (ds.length + 0) := by
      obtain ⟨hline, hcolumn, hpos⟩ := hroom
      rw [List.length_append] at hline hcolumn
      constructor <;> omega
    rw [← hcut]
    exact back_position (hdigits.afterAll ds).pos hwalked
  | _ =>
    obtain ⟨htext, -⟩ := accept_nil (by decide) (by decide) haccept
    rw [htext]
    exact hwalked

theorem readAll_some {keep : Bool} {q' : Counters} {cut : Cut}
    (h : q.read text = some (cut, q')) :
    q.readAll keep text = ((cut.result? keep q.position).toList ++ (q'.readAll keep cut.rest).1,
      (q'.readAll keep cut.rest).2) := by
  rw [readAll]
  split
  · rename_i hnone
    rw [h] at hnone
    cases hnone
  · rename_i hsome
    rw [h] at hsome
    cases hsome
    rfl

/-- While no counter can run over, the runs of the automaton give the results of the text and the
position where it ends. -/
theorem readAll_eq (keep : Bool) (q : Counters) (text : List Char)
    (h : Room q.position text.length) :
    (q.readAll keep text).1 = scanFrom keep q.position text ∧
      (q.readAll keep text).2.position = q.position.afterAll text := by
  match text with
  | [] =>
    rw [readAll, scanFrom]
    exact ⟨rfl, rfl⟩
  | c :: cs =>
    obtain ⟨q', hread, hp⟩ := read_eq (n := 0) h
    have hsplit := lexeme_append c cs
    have hroom : Room q'.position (lexeme c cs).rest.length := by
      rw [hp]
      apply Room.afterAll
      rw [← List.length_append, hsplit]
      exact h
    obtain ⟨hresults, hstop⟩ := readAll_eq keep q' (lexeme c cs).rest hroom
    have hafter : q.position.afterAll (c :: cs) = q'.position.afterAll (lexeme c cs).rest := by
      rw [hp, ← Position.afterAll_append, hsplit]
    rw [readAll_some hread, scanFrom_cons, ← hp, ← hresults, hafter, ← hstop]
    exact ⟨rfl, rfl⟩
termination_by text.length
decreasing_by exact Nat.lt_succ_of_le (lexeme_rest_le c cs)

theorem room_start {text : String} (h : text.length < 2 ^ 30) :
    Room start.position text.toList.length := by
  rw [String.length_toList]
  constructor
  · show 1 + text.length < 2 ^ 32
    omega
  · show 1 + 4 * text.length < 2 ^ 32
    omega
  · exact Nat.le_refl 1

end Counters

/-- Where all lexemes of a text are tokens, the texts of the tokens and blanks between them make up
the text. Where no counter can run over, the automaton counts every token and every error to the
position that reading the characters before its lexeme gives, so positions increase. -/
theorem scan_lossless (text : String) :
    (∀ ts, scanAll text true = .ok ts →
      ∃ gap gs, gs.length = ts.length ∧ (∀ g ∈ gap :: gs, ∀ c ∈ g, isBlank c = true) ∧
        text.toList = gap ++ spread (ts.map fun t => t.text.toList) gs) ∧
    (text.length < 2 ^ 30 → ∀ keep,
      (Counters.start.readAll keep text.toList).1 = scan text keep ∧
      (Counters.start.readAll keep text.toList).2.position = endPosition text ∧
      Laid keep [] text.toList (scan text keep) ∧
      (scan text keep).Pairwise fun r s => compare (positionOf r) (positionOf s) = .lt) := by
  constructor
  · intro ts h
    have hlaid := laid_scan text true
    rw [scan_of_scanAll h] at hlaid
    exact hlaid.exists_gaps
  · intro h keep
    have hlaid := laid_scan text keep
    obtain ⟨hresults, hstop⟩ := Counters.readAll_eq keep .start text.toList (Counters.room_start h)
    refine ⟨hresults, hstop, hlaid, ?_⟩
    apply hlaid.increasing.imp
    intro r s hbefore
    exact Position.compare_eq_lt.2 hbefore

/-- Tabs, a comment over two lines, a string with a line end and a point that is given back. -/
theorem scan_lossless_range :
    ∃ text ts, text = "a:\tarray\t[1..5] \x7b ü\n\t\x7d 'x\ny';" ∧ scanAll text true = .ok ts ∧
      text.length < 2 ^ 30 ∧
      (∃ gap gs, gs.length = ts.length ∧ (∀ g ∈ gap :: gs, ∀ c ∈ g, isBlank c = true) ∧
        text.toList = gap ++ spread (ts.map fun t => t.text.toList) gs) ∧
      ∀ keep, (Counters.start.readAll keep text.toList).1 = scan text keep ∧
        (Counters.start.readAll keep text.toList).2.position = endPosition text ∧
        Laid keep [] text.toList (scan text keep) ∧
        (scan text keep).Pairwise fun r s => compare (positionOf r) (positionOf s) = .lt := by
  have hlength : "a:\tarray\t[1..5] \x7b ü\n\t\x7d 'x\ny';".length < 2 ^ 30 := by decide
  have hok : (scanAll "a:\tarray\t[1..5] \x7b ü\n\t\x7d 'x\ny';" true).isOk = true := by cbv
  cases h : scanAll "a:\tarray\t[1..5] \x7b ü\n\t\x7d 'x\ny';" true with
  | error e =>
    rw [h] at hok
    cases hok
  | ok ts =>
    obtain ⟨hgaps, hplaces⟩ := scan_lossless "a:\tarray\t[1..5] \x7b ü\n\t\x7d 'x\ny';"
    exact ⟨_, ts, rfl, h, hlength, hgaps ts h, hplaces hlength⟩

end MiniPascal.Token
