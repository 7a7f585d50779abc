import MiniPascal.Proofs.Token.Runs

/-! The automaton cuts as `lexeme` does. -/

namespace MiniPascal.Token

open Computability State

variable {s t : State} {p : Char → Bool} {c : Char} {cs ds v w text rest tail : List Char}

/-! ### Where runs of characters end -/

theorem State.stuck_edge (h : ∀ d ∈ rest.head?, s.after d = none) {e : (Char → Bool) × State}
    (he : e ∈ s.edges) : ∀ d ∈ rest.head?, e.1 d = false := by
  intro d hd
  rw [Bool.eq_false_iff]
  intro hp
  have hnone := h d hd
  rw [after_of_edge he hp] at hnone
  cases hnone

theorem takeWhile_stop (h : ∀ d ∈ rest.head?, p d = false) : rest.takeWhile p = [] := by
  cases rest with
  | nil => rfl
  | cons d rest => exact List.takeWhile_cons_of_neg (ne_true_of_eq_false (h d rfl))

theorem dropWhile_stop (h : ∀ d ∈ rest.head?, p d = false) : rest.dropWhile p = rest := by
  cases rest with
  | nil => rfl
  | cons d rest => exact List.dropWhile_cons_of_neg (ne_true_of_eq_false (h d rfl))

theorem takeWhile_run (hds : ∀ d ∈ ds, p d = true) (h : ∀ d ∈ rest.head?, p d = false) :
    (ds ++ rest).takeWhile p = ds := by
  rw [List.takeWhile_append_of_pos hds, takeWhile_stop h, List.append_nil]

theorem dropWhile_run (hds : ∀ d ∈ ds, p d = true) (h : ∀ d ∈ rest.head?, p d = false) :
    (ds ++ rest).dropWhile p = rest := by
  rw [List.dropWhile_append_of_pos hds, dropWhile_stop h]

theorem head_cons (hc : p c = false) : ∀ d ∈ (c :: rest).head?, p d = false := by
  rintro _ ⟨⟩
  exact hc

/-- A walk stops only behind the whole text where a character goes on and all others do. -/
theorem State.rest_eq_nil {q : Char} {u : State} (h : ∀ d ∈ rest.head?, s.after d = none)
    (hother : (fun d => decide (d ≠ q), t) ∈ s.edges)
    (hsame : (fun d => decide (d = q), u) ∈ s.edges) : rest = [] := by
  cases rest with
  | nil => rfl
  | cons d rest =>
    have hne := stuck_edge h hother d rfl
    have heq := stuck_edge h hsame d rfl
    rw [decide_eq_false_iff_not] at hne heq
    exact absurd heq hne

/-- No character starts lexemes of two sorts. -/
theorem start_edge_unique (e e' : (Char → Bool) × State) (he : e ∈ start.edges)
    (hc : e.1 c = true) (he' : e' ∈ start.edges) (hne : e.2 ≠ e'.2) : e'.1 c = false := by
  rw [Bool.eq_false_iff]
  intro hc'
  have hsame := (after_of_edge he hc).symm.trans (after_of_edge he' hc')
  exact hne (Option.some.inj hsame)

/-- The piece starts as the text does. -/
theorem State.Stops.head {d : Char} (h : start.Stops (c :: cs) s (d :: v) rest) :
    c = d ∧ cs = v ++ rest := by
  obtain ⟨hhead, htail⟩ := List.cons.inj h.append
  exact ⟨hhead.symm, htail.symm⟩

/-! ### Words and numbers -/

theorem lexeme_word (hc : isWordStart c = true) : lexeme c cs = word c cs := by
  have hblank : isBlank c = false :=
    start_edge_unique (isWordStart, .word) (isBlank, .blank) (by simp [edges]) hc
      (by simp [edges]) (by decide)
  rw [lexeme, hblank, if_neg Bool.false_ne_true, hc, if_pos rfl]

theorem lexeme_number (hc : c.isDigit = true) : lexeme c cs = number c cs := by
  have hblank : isBlank c = false :=
    start_edge_unique (Char.isDigit, .integer) (isBlank, .blank) (by simp [edges]) hc
      (by simp [edges]) (by decide)
  have hword : isWordStart c = false :=
    start_edge_unique (Char.isDigit, .integer) (isWordStart, .word) (by simp [edges]) hc
      (by simp [edges]) (by decide)
  rw [lexeme, hblank, if_neg Bool.false_ne_true, hword, if_neg Bool.false_ne_true, hc, if_pos rfl]

/-- A text that starts with digits is cut behind them. -/
theorem lexeme_digits (hds : ds ∈ many Char.isDigit) (h : ∀ d ∈ tail.head?, d.isDigit = false)
    (htext : ds ++ tail = c :: cs) : lexeme c cs = afterWhole ds tail := by
  obtain ⟨hne, hds⟩ := mem_many.1 hds
  obtain ⟨d, ds, rfl⟩ := List.exists_cons_of_ne_nil hne
  rw [List.cons_append] at htext
  obtain ⟨rfl, rfl⟩ := List.cons.inj htext
  obtain ⟨hd, hds⟩ := List.forall_mem_cons.1 hds
  rw [lexeme_number hd, number, takeWhile_run hds h, dropWhile_run hds h]

theorem Mantissa.exponent_none (m : Mantissa) {verdict : Verdict}
    (h : ∀ d ∈ rest.head?, isExponentMark d = false) :
    m.exponent text verdict rest = ⟨verdict, text, rest⟩ := by
  unfold exponent
  split
  · cases h 'e' rfl
  · cases h 'E' rfl
  · rfl

theorem Mantissa.exponent_some (m : Mantissa) {verdict : Verdict} (h : isExponentMark c = true) :
    m.exponent text verdict (c :: rest) = m.signedExponent (text ++ [c]) rest := by
  rw [isExponentMark, Bool.or_eq_true, decide_eq_true_eq, decide_eq_true_eq] at h
  rcases h with rfl | rfl <;> rfl

/-- Without a point the digits are all there is in front of an exponent. -/
theorem afterWhole_whole (h : ∀ d ∈ tail.head?, decide (d = '.') = false) :
    afterWhole ds tail = Mantissa.exponent ⟨ds, []⟩ ds (integer 10 ds) tail := by
  unfold afterWhole
  split
  · cases h '.' rfl
  · rfl

theorem afterWhole_point (h : ∀ d ∈ rest.head?, d.isDigit = false) :
    afterWhole ds ('.' :: rest) = ⟨integer 10 ds, ds, '.' :: rest⟩ := by
  rw [afterWhole, takeWhile_stop h]
  rfl

theorem afterWhole_fraction {fs : List Char} (hfs : fs ∈ many Char.isDigit)
    (h : ∀ d ∈ tail.head?, d.isDigit = false) :
    afterWhole ds ('.' :: (fs ++ tail)) =
      Mantissa.exponent ⟨ds, fs⟩ (ds ++ '.' :: fs) (.token .double (.fraction
        (Mantissa.scaled ⟨ds, fs⟩ 0))) tail := by
  obtain ⟨hne, hfs⟩ := mem_many.1 hfs
  rw [afterWhole, takeWhile_run hfs h, dropWhile_run hfs h, if_neg (mt List.isEmpty_iff.1 hne)]

/-- Characters that stand behind a number without being read as a part of it. -/
theorem isDigit_of_isExponentMark (h : isExponentMark c = true) : c.isDigit = false := by
  rw [isExponentMark, Bool.or_eq_true, decide_eq_true_eq, decide_eq_true_eq] at h
  rcases h with rfl | rfl <;> rfl

theorem isDigit_of_isSign (h : isSign c = true) : c.isDigit = false := by
  rw [isSign, Bool.or_eq_true, decide_eq_true_eq, decide_eq_true_eq] at h
  rcases h with rfl | rfl <;> rfl

theorem decimal_whole (hds : ds ∈ many Char.isDigit) (h : ∀ d ∈ tail.head?, d.isDigit = false)
    (hdot : ∀ d ∈ tail.head?, decide (d = '.') = false) :
    decimal (ds ++ tail) = Mantissa.scaled ⟨ds, []⟩ (exponentValue tail.tail) := by
  unfold decimal
  rw [takeWhile_run (mem_many.1 hds).2 h, dropWhile_run (mem_many.1 hds).2 h]
  dsimp only
  split
  · cases hdot '.' rfl
  · rfl

theorem decimal_fraction {fs : List Char} (hds : ds ∈ many Char.isDigit)
    (hfs : fs ∈ many Char.isDigit) (h : ∀ d ∈ tail.head?, d.isDigit = false) :
    decimal (ds ++ '.' :: (fs ++ tail)) =
      Mantissa.scaled ⟨ds, fs⟩ (exponentValue tail.tail) := by
  have hdot : ∀ d ∈ ('.' :: (fs ++ tail)).head?, d.isDigit = false := head_cons rfl
  unfold decimal
  rw [takeWhile_run (mem_many.1 hds).2 hdot, dropWhile_run (mem_many.1 hds).2 hdot]
  show Mantissa.scaled ⟨ds, (fs ++ tail).takeWhile Char.isDigit⟩
    (exponentValue ((fs ++ tail).dropWhile Char.isDigit).tail) = _
  rw [takeWhile_run (mem_many.1 hfs).2 h, dropWhile_run (mem_many.1 hfs).2 h]

/-- A mantissa and the mark of an exponent are read as such, whatever stands behind them. -/
theorem lexeme_mantissa (hv : v ∈ mantissas) {x : Char} (hx : isExponentMark x = true) :
    ∃ m : Mantissa, (∀ tail, decimal (v ++ x :: tail) = m.scaled (exponentValue tail)) ∧
      ∀ tail, v ++ x :: tail = c :: cs → lexeme c cs = m.signedExponent (v ++ [x]) tail := by
  have hdigit : ∀ tail : List Char, ∀ d ∈ (x :: tail).head?, d.isDigit = false :=
    fun _ => head_cons (isDigit_of_isExponentMark hx)
  obtain ⟨ds, hds, b, rfl | hb, rfl⟩ := Language.mem_mul.1 hv
  · -- digits alone
    have hne : decide (x = '.') = false := by
      rw [decide_eq_false_iff_not]
      rintro rfl
      cases hx
    have hdot : ∀ tail : List Char, ∀ d ∈ (x :: tail).head?, decide (d = '.') = false :=
      fun _ => head_cons hne
    rw [List.append_nil]
    refine ⟨⟨ds, []⟩, fun tail => decimal_whole hds (hdigit tail) (hdot tail), ?_⟩
    intro tail htext
    rw [lexeme_digits hds (hdigit tail) htext, afterWhole_whole (hdot tail),
      Mantissa.exponent_some _ hx]
  · -- digits with a point
    obtain ⟨_, rfl, fs, hfs, rfl⟩ := Language.mem_mul.1 hb
    refine ⟨⟨ds, fs⟩, ?_, ?_⟩
    · intro tail
      have hvalue := decimal_fraction hds hfs (hdigit tail)
      simpa using hvalue
    · intro tail htext
      have hdot : ∀ d ∈ ('.' :: (fs ++ x :: tail)).head?, d.isDigit = false := head_cons rfl
      have htext' : ds ++ '.' :: (fs ++ x :: tail) = c :: cs := by
        rw [← htext]
        simp
      rw [lexeme_digits hds hdot htext', afterWhole_fraction hfs (hdigit tail),
        Mantissa.exponent_some _ hx]
      rfl

/-- What stands behind the mark: no sign, or a sign that is one more character of the piece. -/
theorem Mantissa.signedExponent_none (m : Mantissa) (h : ∀ d ∈ tail.head?, isSign d = false) :
    m.signedExponent v tail = m.exponentDigits v false tail := by
  unfold signedExponent
  split
  · cases h '+' rfl
  · cases h '-' rfl
  · rfl

theorem Mantissa.exponentDigits_none (m : Mantissa) {negative : Bool}
    (h : ∀ d ∈ rest.head?, d.isDigit = false) :
    m.exponentDigits v negative rest =
      ⟨.failure (.malformedNumber (String.ofList v)), v, rest⟩ := by
  rw [exponentDigits, takeWhile_stop h, dropWhile_stop h, List.append_nil]
  rfl

theorem Mantissa.exponentDigits_some (m : Mantissa) {negative : Bool}
    (hds : ds ∈ many Char.isDigit) (h : ∀ d ∈ rest.head?, d.isDigit = false) :
    m.exponentDigits v negative (ds ++ rest) =
      ⟨.token .double (.scientific (m.scaled
        (if negative then -(ofDigits 10 ds : Int) else ofDigits 10 ds))), v ++ ds, rest⟩ := by
  obtain ⟨hne, hds⟩ := mem_many.1 hds
  rw [exponentDigits, takeWhile_run hds h, dropWhile_run hds h, if_neg (mt List.isEmpty_iff.1 hne)]

/-- A sign or none and digits behind the mark of an exponent. -/
theorem Mantissa.signedExponent_some (m : Mantissa) {g : List Char}
    (hg : g ∈ (1 : Language Char) + one isSign) (hds : ds ∈ many Char.isDigit)
    (h : ∀ d ∈ rest.head?, d.isDigit = false) :
    m.signedExponent v (g ++ ds ++ rest) =
      ⟨.token .double (.scientific (m.scaled (exponentValue (g ++ ds)))), v ++ g ++ ds, rest⟩ := by
  rcases hg with rfl | ⟨y, hy, rfl⟩
  · -- no sign, and no digit is one
    obtain ⟨hne, hall⟩ := mem_many.1 hds
    have hsign : ∀ d ∈ ds.head?, isSign d = false := by
      intro d hd
      have hdigit := hall d (List.mem_of_mem_head? hd)
      rw [Bool.eq_false_iff]
      intro hy
      rw [isDigit_of_isSign hy] at hdigit
      cases hdigit
    have hhead : (ds ++ rest).head? = ds.head? := List.head?_append_of_ne_nil ds hne
    have hvalue : exponentValue ds = ofDigits 10 ds := by
      unfold exponentValue
      split
      · cases hsign '-' rfl
      · cases hsign '+' rfl
      · rfl
    rw [List.nil_append, List.append_nil, m.signedExponent_none (by rwa [hhead]),
      m.exponentDigits_some hds h, hvalue]
    rfl
  · rw [isSign, Bool.or_eq_true, decide_eq_true_eq, decide_eq_true_eq] at hy
    rcases hy with rfl | rfl
    · have hplus : m.exponentDigits (v ++ ['+']) false (ds ++ rest) = _ :=
        m.exponentDigits_some hds h
      exact hplus
    · have hminus : m.exponentDigits (v ++ ['-']) true (ds ++ rest) = _ :=
        m.exponentDigits_some hds h
      exact hminus

theorem lexeme_at_integer (h : start.Stops (c :: cs) .integer w rest) :
    lexeme c cs = ⟨integer 10 w, w, rest⟩ := by
  have hw : w ∈ many Char.isDigit := run_start.1 h.run
  have hdigit := stuck_edge h.stuck (e := (Char.isDigit, .integer)) (by simp [edges])
  have hdot := stuck_edge h.stuck (e := ((· = '.'), .integerDot)) (by simp [edges])
  have hmark := stuck_edge h.stuck (e := (isExponentMark, .exponent)) (by simp [edges])
  rw [lexeme_digits hw hdigit h.append, afterWhole_whole hdot, Mantissa.exponent_none _ hmark]

theorem lexeme_at_integerDot (h : start.Stops (c :: cs) .integerDot w rest) :
    lexeme c cs = ⟨integer 10 w.dropLast, w.dropLast, '.' :: rest⟩ := by
  obtain ⟨ds, hds, _, rfl, rfl⟩ := Language.mem_mul.1 (run_start.1 h.run)
  have hdigit := stuck_edge h.stuck (e := (Char.isDigit, .fraction)) (by simp [edges])
  have hdot : ∀ d ∈ ('.' :: rest).head?, d.isDigit = false := head_cons rfl
  have htext : ds ++ '.' :: rest = c :: cs := by
    rw [← h.append]
    simp
  rw [List.dropLast_concat, lexeme_digits hds hdot htext, afterWhole_point hdigit]

theorem lexeme_at_fraction (h : start.Stops (c :: cs) .fraction w rest) :
    lexeme c cs = ⟨.token .double (.fraction (decimal w)), w, rest⟩ := by
  obtain ⟨ds, hds, b, hb, rfl⟩ := Language.mem_mul.1 (run_start.1 h.run)
  obtain ⟨_, rfl, fs, hfs, rfl⟩ := Language.mem_mul.1 hb
  have hdigit := stuck_edge h.stuck (e := (Char.isDigit, .fraction)) (by simp [edges])
  have hmark := stuck_edge h.stuck (e := (isExponentMark, .exponent)) (by simp [edges])
  have hdot : ∀ d ∈ ('.' :: (fs ++ rest)).head?, d.isDigit = false := head_cons rfl
  have htext : ds ++ '.' :: (fs ++ rest) = c :: cs := by
    rw [← h.append]
    simp
  have hnil : ∀ d ∈ ([] : List Char).head?, d.isDigit = false := by
    rintro _ ⟨⟩
  have hvalue := decimal_fraction hds hfs hnil
  rw [List.append_nil] at hvalue
  rw [lexeme_digits hds hdot htext, afterWhole_fraction hfs hdigit,
    Mantissa.exponent_none _ hmark, List.singleton_append, hvalue]
  rfl

theorem lexeme_at_exponent (h : start.Stops (c :: cs) .exponent w rest) :
    lexeme c cs = ⟨.failure (.malformedNumber (String.ofList w)), w, rest⟩ := by
  obtain ⟨v, hv, _, ⟨x, hx, rfl⟩, rfl⟩ := Language.mem_mul.1 (run_start.1 h.run)
  have hdigit := stuck_edge h.stuck (e := (Char.isDigit, .exponentDigits)) (by simp [edges])
  have hsign := stuck_edge h.stuck (e := (isSign, .exponentSign)) (by simp [edges])
  have htext : v ++ x :: rest = c :: cs := by
    rw [← h.append]
    simp
  obtain ⟨m, -, hm⟩ := lexeme_mantissa hv hx
  rw [hm rest htext, m.signedExponent_none hsign, m.exponentDigits_none hdigit]

theorem lexeme_at_exponentSign (h : start.Stops (c :: cs) .exponentSign w rest) :
    lexeme c cs = ⟨.failure (.malformedNumber (String.ofList w)), w, rest⟩ := by
  obtain ⟨a, ha, _, ⟨y, hy, rfl⟩, rfl⟩ := Language.mem_mul.1 (run_start.1 h.run)
  obtain ⟨v, hv, _, ⟨x, hx, rfl⟩, rfl⟩ := Language.mem_mul.1 ha
  have hdigit := stuck_edge h.stuck (e := (Char.isDigit, .exponentDigits)) (by simp [edges])
  have htext : v ++ x :: y :: rest = c :: cs := by
    rw [← h.append]
    simp
  obtain ⟨m, -, hm⟩ := lexeme_mantissa hv hx
  rw [hm (y :: rest) htext]
  rw [isSign, Bool.or_eq_true, decide_eq_true_eq, decide_eq_true_eq] at hy
  rcases hy with rfl | rfl
  · exact m.exponentDigits_none hdigit
  · exact m.exponentDigits_none hdigit

theorem lexeme_at_exponentDigits (h : start.Stops (c :: cs) .exponentDigits w rest) :
    lexeme c cs = ⟨.token .double (.scientific (decimal w)), w, rest⟩ := by
  obtain ⟨a, ha, es, hes, rfl⟩ := Language.mem_mul.1 (run_start.1 h.run)
  obtain ⟨b, hb, g, hg, rfl⟩ := Language.mem_mul.1 ha
  obtain ⟨v, hv, _, ⟨x, hx, rfl⟩, rfl⟩ := Language.mem_mul.1 hb
  have hdigit := stuck_edge h.stuck (e := (Char.isDigit, .exponentDigits)) (by simp [edges])
  have htext : v ++ x :: (g ++ es ++ rest) = c :: cs := by
    rw [← h.append]
    simp
  obtain ⟨m, hvalue, hm⟩ := lexeme_mantissa hv hx
  have hpiece : v ++ [x] ++ g ++ es = v ++ x :: (g ++ es) := by simp
  rw [hm _ htext, m.signedExponent_some hg hes hdigit, hpiece, hvalue]

/-! ### Integers with a mark -/

/-- A mark without digits. -/
theorem lexeme_at_mark {mark : Char} {base : Nat}
    (hcut : ∀ cs, lexeme mark cs = marked mark base p cs)
    (he : (p, t) ∈ s.edges) (hw : w = [mark]) (h : start.Stops (c :: cs) s w rest) :
    lexeme c cs = ⟨.failure (.malformedNumber (String.ofList w)), w, rest⟩ := by
  subst hw
  obtain ⟨rfl, hcs⟩ := h.head
  rw [List.nil_append] at hcs
  subst hcs
  have hdigit := stuck_edge h.stuck he
  rw [hcut, marked, takeWhile_stop hdigit, dropWhile_stop hdigit]
  rfl

/-- A mark with digits. -/
theorem lexeme_at_marked {mark : Char} {base : Nat}
    (hcut : ∀ cs, lexeme mark cs = marked mark base p cs) (he : (p, t) ∈ s.edges)
    (hw : w ∈ {[mark]} * many p) (h : start.Stops (c :: cs) s w rest) :
    lexeme c cs = ⟨integer base w.tail, w, rest⟩ := by
  obtain ⟨_, rfl, ds, hds, rfl⟩ := Language.mem_mul.1 hw
  obtain ⟨rfl, rfl⟩ := h.head (v := ds)
  obtain ⟨hne, hds⟩ := mem_many.1 hds
  have hdigit := stuck_edge h.stuck he
  rw [hcut, marked, takeWhile_run hds hdigit, dropWhile_run hds hdigit,
    if_neg (mt List.isEmpty_iff.1 hne)]
  rfl

/-! ### Strings and comments -/

/-- The inside of a string is taken in front of whatever closes it. -/
theorem closeQuote_quotes (hv : v ∈ quotes) (tail : List Char) :
    closeQuote (v ++ tail) = (closeQuote tail).map fun (i, r) => (v ++ i, r) := by
  obtain ⟨ws, rfl, hws⟩ := Language.mem_kstar.1 hv
  clear hv
  induction ws with
  | nil =>
    rw [List.flatten_nil, List.nil_append]
    exact Option.map_id'.symm
  | cons w ws ih =>
    obtain ⟨hw, hmore⟩ := List.forall_mem_cons.1 hws
    have ih := ih hmore
    rcases hw with ⟨d, hd, rfl⟩ | rfl
    · have hne : d ≠ '\'' := of_decide_eq_true hd
      show closeQuote (d :: (ws.flatten ++ tail)) = _
      rw [closeQuote.eq_4 _ _ (fun _ h _ => hne h) hne, ih, Option.map_map]
      rfl
    · show closeQuote ('\'' :: '\'' :: (ws.flatten ++ tail)) = _
      rw [closeQuote, ih, Option.map_map]
      rfl

theorem lexeme_string : lexeme '\'' cs = string cs := rfl

theorem lexeme_blockComment : lexeme '\x7b' cs = blockComment cs := rfl

theorem lexeme_at_str (h : start.Stops (c :: cs) .str w rest) :
    lexeme c cs = ⟨.failure .unterminatedString, w, rest⟩ := by
  obtain ⟨_, rfl, v, hv, rfl⟩ := Language.mem_mul.1 (run_start.1 h.run)
  obtain rfl := rest_eq_nil (q := '\'') (t := .str) (u := .strQuote) h.stuck (by simp [edges])
    (by simp [edges])
  obtain ⟨rfl, rfl⟩ := h.head (v := v)
  rw [lexeme_string, string, closeQuote_quotes hv]
  simp [closeQuote]

theorem lexeme_at_strQuote (h : start.Stops (c :: cs) .strQuote w rest) :
    lexeme c cs =
      ⟨.token .string (.string (String.ofList (unquote w.tail.dropLast))), w, rest⟩ := by
  obtain ⟨a, ha, _, rfl, rfl⟩ := Language.mem_mul.1 (run_start.1 h.run)
  obtain ⟨_, rfl, v, hv, rfl⟩ := Language.mem_mul.1 ha
  have hquote := stuck_edge h.stuck (e := ((· = '\''), .str)) (by simp [edges])
  have hclose : closeQuote ('\'' :: rest) = some ([], rest) := by
    cases rest with
    | nil => rfl
    | cons d rest =>
      have hd := hquote d rfl
      rw [decide_eq_false_iff_not] at hd
      rw [closeQuote]
      rintro _ ⟨⟩
      exact hd rfl
  obtain ⟨rfl, rfl⟩ := h.head (v := v ++ ['\''])
  have hinside : (['\''] ++ v ++ ['\'']).tail.dropLast = v := List.dropLast_concat
  rw [hinside, lexeme_string, string, List.append_assoc, closeQuote_quotes hv,
    List.singleton_append, hclose]
  simp

theorem lexeme_at_lineComment (h : start.Stops (c :: cs) .lineComment w rest) :
    lexeme c cs = ⟨.token .comment .plain, w, rest⟩ := by
  obtain ⟨_, rfl, v, hv, rfl⟩ := Language.mem_mul.1 (run_start.1 h.run)
  have hline := stuck_edge h.stuck (e := ((· ≠ '\n'), .lineComment)) (by simp [edges])
  obtain ⟨rfl, rfl⟩ := h.head (v := '/' :: v)
  have hrun : ∀ d ∈ '/' :: v, decide (d ≠ '\n') = true :=
    List.forall_mem_cons.2 ⟨rfl, mem_star_one.1 hv⟩
  show lineComment ('/' :: v ++ rest) = _
  rw [lineComment, takeWhile_run hrun hline, dropWhile_run hrun hline]
  rfl

theorem lexeme_at_blockComment (h : start.Stops (c :: cs) .blockComment w rest) :
    lexeme c cs = ⟨.failure .unterminatedComment, w, rest⟩ := by
  obtain ⟨_, rfl, v, hv, rfl⟩ := Language.mem_mul.1 (run_start.1 h.run)
  obtain rfl := rest_eq_nil (q := '\x7d') (t := .blockComment) (u := .blockCommentEnd) h.stuck
    (by simp [edges]) (by simp [edges])
  obtain ⟨rfl, rfl⟩ := h.head (v := v)
  have hrun := mem_star_one.1 hv
  have hnil : ∀ d ∈ ([] : List Char).head?, decide (d ≠ '\x7d') = false := by
    rintro _ ⟨⟩
  rw [lexeme_blockComment, blockComment, takeWhile_run hrun hnil, dropWhile_run hrun hnil]
  rfl

theorem lexeme_at_blockCommentEnd (h : start.Stops (c :: cs) .blockCommentEnd w rest) :
    lexeme c cs = ⟨.token .comment .plain, w, rest⟩ := by
  obtain ⟨a, ha, _, rfl, rfl⟩ := Language.mem_mul.1 (run_start.1 h.run)
  obtain ⟨_, rfl, v, hv, rfl⟩ := Language.mem_mul.1 ha
  obtain ⟨rfl, rfl⟩ := h.head (v := v ++ ['\x7d'])
  have hrun := mem_star_one.1 hv
  have hclose : ∀ d ∈ ('\x7d' :: rest).head?, decide (d ≠ '\x7d') = false := head_cons rfl
  rw [lexeme_blockComment, blockComment, List.append_assoc, List.singleton_append,
    takeWhile_run hrun hclose, dropWhile_run hrun hclose]
  simp

/-! ### Symbols -/

theorem ofChars?_chars (s : Symbol) : Symbol.ofChars? s.chars = some s := by
  cases s <;> rfl

theorem chars_of_ofChars? {s : Symbol} (h : Symbol.ofChars? w = some s) : s.chars = w := by
  have hs := List.find?_some h
  exact beq_iff_eq.1 hs

/-- The first character of a symbol starts no other sort of lexeme, except that two slashes start a
comment. -/
theorem lexeme_symbol {s : Symbol} (h : s.chars = c :: v)
    (hslash : ¬ (c = '/' ∧ cs.head? = some '/')) : lexeme c cs = symbol c cs := by
  have hfirst : (isBlank c || isWordStart c || c.isDigit || c = '$' || c = '&' || c = '%' ||
      c = '\'' || c = '\x7b') = false := by
    cases s <;> cases h <;> decide
  simp only [Bool.or_eq_false_iff, decide_eq_false_iff_not] at hfirst
  obtain ⟨⟨⟨⟨⟨⟨⟨hblank, hword⟩, hdigit⟩, hhex⟩, hoctal⟩, hbinary⟩, hquote⟩, hbrace⟩ := hfirst
  simp [lexeme, hblank, hword, hdigit, hhex, hoctal, hbinary, hquote, hbrace, hslash]

/-- Where the automaton stops behind a character, that character and the next are no symbol. -/
theorem ofChars?_stuck {d : Char} (hrun : start.run [c] = some s) (hd : s.after d = none) :
    Symbol.ofChars? [c, d] = none := by
  cases hs : Symbol.ofChars? [c, d] with
  | none => rfl
  | some x =>
    obtain ⟨t, -, ht⟩ := run_symbol x
    rw [chars_of_ofChars? hs] at ht
    have hsplit : start.run ([c] ++ [d]) = some t := ht
    rw [run_append, hrun, Option.bind_some, run_cons, hd] at hsplit
    cases hsplit

theorem lexeme_at_symbolic (hs : s.IsSymbolic) (h : start.Stops (c :: cs) s w rest) :
    ∃ x, Symbol.ofChars? w = some x ∧ lexeme c cs = ⟨.token (.symbol x) .plain, w, rest⟩ := by
  obtain ⟨x, rfl⟩ := hs.mem_symbols (run_start.1 h.run)
  refine ⟨x, ofChars?_chars x, ?_⟩
  -- a symbol of one character is taken only where the next one makes no longer symbol
  have hshape : (∃ d, x.chars = [d]) ∨ ∃ d e, x.chars = [d, e] := by
    cases x <;> first | exact .inl ⟨_, rfl⟩ | exact .inr ⟨_, _, rfl⟩
  rcases hshape with ⟨d, hd⟩ | ⟨d, e, hd⟩
  · rw [hd] at h ⊢
    obtain ⟨rfl, hcs⟩ := h.head
    rw [List.nil_append] at hcs
    subst hcs
    have hslash : ¬ (c = '/' ∧ cs.head? = some '/') := by
      rintro ⟨rfl, hrest⟩
      have hrun := h.run
      cases hrun
      cases h.stuck '/' hrest
    have hone : Symbol.ofChars? [c] = some x := hd ▸ ofChars?_chars x
    rw [lexeme_symbol hd hslash]
    cases cs with
    | nil => rw [symbol, shortSymbol, hone]
    | cons e cs => rw [symbol, ofChars?_stuck h.run (h.stuck e rfl), shortSymbol, hone]
  · rw [hd] at h ⊢
    obtain ⟨rfl, rfl⟩ := h.head (v := [e])
    have hslash : ¬ (c = '/' ∧ ([e] ++ rest).head? = some '/') := by
      rintro ⟨rfl, ⟨⟩⟩
      cases x <;> cases hd
    have htwo : Symbol.ofChars? [c, e] = some x := hd ▸ ofChars?_chars x
    rw [lexeme_symbol hd hslash, List.singleton_append, symbol, htwo]

/-! ### Blanks and no lexeme -/

theorem lexeme_at_blank (h : start.Stops (c :: cs) .blank w rest) :
    lexeme c cs = ⟨.blanks, w, rest⟩ := by
  obtain ⟨hne, hw⟩ := mem_many.1 (run_start.1 h.run)
  obtain ⟨d, v, rfl⟩ := List.exists_cons_of_ne_nil hne
  obtain ⟨rfl, rfl⟩ := h.head
  obtain ⟨hc, hv⟩ := List.forall_mem_cons.1 hw
  have hblank := stuck_edge h.stuck (e := (isBlank, .blank)) (by simp [edges])
  rw [lexeme, if_pos hc, takeWhile_run hv hblank, dropWhile_run hv hblank]

/-- A character that leads nowhere from the start is no lexeme. -/
theorem lexeme_at_start (h : start.Stops (c :: cs) .start w rest) :
    w = [] ∧ rest = c :: cs ∧ lexeme c cs = ⟨.failure (.unknownSymbol c), [c], cs⟩ := by
  obtain rfl : w = [] := run_start.1 h.run
  obtain rfl : rest = c :: cs := h.append
  -- no test of `lexeme` finds the character, since each of them is an edge out of the start
  have hedge : ∀ e ∈ start.edges, e.1 c = false := fun e he => stuck_edge h.stuck he c rfl
  have hsymbol : ∀ v, Symbol.ofChars? (c :: v) = none := by
    intro v
    cases hs : Symbol.ofChars? (c :: v) with
    | none => rfl
    | some x =>
      obtain ⟨t, -, ht⟩ := run_symbol x
      rw [chars_of_ofChars? hs, run_cons, h.stuck c rfl] at ht
      cases ht
  refine ⟨rfl, rfl, ?_⟩
  simp only [edges, List.forall_mem_cons, decide_eq_false_iff_not] at hedge
  obtain ⟨hword, hdigit, hhex, hoctal, hbinary, hblank, hquote, hslash, hbrace, -⟩ := hedge
  have hshort : ∀ more, shortSymbol c more = ⟨.failure (.unknownSymbol c), [c], more⟩ := by
    intro more
    rw [shortSymbol, hsymbol]
  have hlexeme : lexeme c cs = symbol c cs := by
    simp [lexeme, hblank, hword, hdigit, hhex, hoctal, hbinary, hquote, hbrace, hslash]
  rw [hlexeme]
  cases cs with
  | nil => exact hshort []
  | cons d cs => rw [symbol, hsymbol, hshort]

/-! ### One run -/

theorem accept_word (h : start.Stops (c :: cs) .word w rest) :
    accept .word w rest = some (lexeme c cs) := by
  obtain ⟨d, v, rfl, hd, hv⟩ := mem_words.1 (run_start.1 h.run)
  obtain ⟨rfl, rfl⟩ := h.head
  have hpart := stuck_edge h.stuck (e := (isWordPart, .word)) (by simp [edges])
  rw [lexeme_word hd, word, takeWhile_run hv hpart, dropWhile_run hv hpart]
  rfl

/-- What the automaton says in the state in which it stops is the cut of `lexeme`. -/
theorem accept_eq (h : start.Stops (c :: cs) s w rest) :
    accept s w rest = some (lexeme c cs) := by
  cases s with
  | start =>
    obtain ⟨rfl, rfl, hcut⟩ := lexeme_at_start h
    rw [hcut]
    rfl
  | blank => rw [lexeme_at_blank h, accept]
  | word => exact accept_word h
  | integer => rw [lexeme_at_integer h, accept]
  | integerDot => rw [lexeme_at_integerDot h, accept]
  | fraction => rw [lexeme_at_fraction h, accept]
  | exponent => rw [lexeme_at_exponent h, accept]
  | exponentSign => rw [lexeme_at_exponentSign h, accept]
  | exponentDigits => rw [lexeme_at_exponentDigits h, accept]
  | hexPrefix =>
    rw [lexeme_at_mark (t := hex) (fun _ => rfl) (by simp [edges]) (run_start.1 h.run) h, accept]
  | octalPrefix =>
    rw [lexeme_at_mark (t := octal) (fun _ => rfl) (by simp [edges]) (run_start.1 h.run) h, accept]
  | binaryPrefix =>
    rw [lexeme_at_mark (t := binary) (fun _ => rfl) (by simp [edges]) (run_start.1 h.run) h, accept]
  | hex =>
    rw [lexeme_at_marked (t := hex) (fun _ => rfl) (by simp [edges]) (run_start.1 h.run) h, accept]
  | octal =>
    rw [lexeme_at_marked (t := octal) (fun _ => rfl) (by simp [edges]) (run_start.1 h.run) h,
      accept]
  | binary =>
    rw [lexeme_at_marked (t := binary) (fun _ => rfl) (by simp [edges]) (run_start.1 h.run) h,
      accept]
  | str => rw [lexeme_at_str h, accept]
  | strQuote => rw [lexeme_at_strQuote h, accept]
  | lineComment => rw [lexeme_at_lineComment h, accept]
  | blockComment => rw [lexeme_at_blockComment h, accept]
  | blockCommentEnd => rw [lexeme_at_blockCommentEnd h, accept]
  | slash | operator | less | dot | doubleDot | symbol =>
    obtain ⟨x, hx, hcut⟩ := lexeme_at_symbolic (by simp [IsSymbolic]) h
    rw [hcut, accept, hx]
    rfl

/-- One run of the automaton over the bytes of a text that is not empty is one cut of the text. In
particular the bytes that it reads are those of whole characters, and what it reads in a state
behind a symbol is a symbol. -/
theorem automaton_lexeme (c : Char) (cs : List Char) :
    automaton (c :: cs) = some (lexeme c cs) := by
  obtain ⟨s, w, rest, h⟩ := exists_stops .start (c :: cs)
  rw [automaton_eq h, accept_eq h]

end MiniPascal.Token
