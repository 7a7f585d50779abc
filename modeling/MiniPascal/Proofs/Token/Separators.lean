import MiniPascal.Proofs.Recoding.Layout
import MiniPascal.Proofs.Token.Pieces

/-! Tokens are read again under any layout, since no token but a comment goes on with a blank. -/

namespace MiniPascal.Token

open Computability State

/-- What stands between tokens: a blank, a comment in braces, or a comment that the end of its line
closes. -/
def fillers : Language Char :=
  one isBlank + {['\x7b']} * (one (· ≠ '\x7d'))∗ * {['\x7d']} +
    {['/', '/']} * (one (· ≠ '\n'))∗ * {['\n']}

/-- A blank and any fillers behind it. -/
def separators : Language Char := one isBlank * fillers∗

variable {keep : Bool} {p : Position} {s : State} {c : Char} {u v w rest more : List Char}
  {kind : Kind} {literal : Literal} {cut : Cut} {t : Token}

/-- What the automaton says where it stops is what comes first among the results. -/
theorem scanFrom_of_stops {text : List Char} (h : start.Stops text s w rest)
    (hcut : accept s w rest = some cut) :
    scanFrom keep p text = (cut.result? keep p).toList ++
      scanFrom keep (p.afterAll cut.text) cut.rest := by
  cases text with
  | nil =>
    obtain ⟨rfl, rfl⟩ := List.append_eq_nil_iff.1 h.append
    cases h.run
    cases hcut
  | cons c cs =>
    obtain rfl : lexeme c cs = cut := Option.some.inj ((accept_eq h).symm.trans hcut)
    exact scanFrom_cons keep p c cs

/-! ### Separators -/

theorem blank_cases (hc : isBlank c = true) : c = ' ' ∨ c = '\t' ∨ c = '\n' ∨ c = '\r' := by
  simpa [isBlank, or_assoc] using hc

/-- Blanks can be skipped one by one. -/
theorem scanFrom_blank (hc : isBlank c = true) :
    scanFrom keep p (c :: rest) = scanFrom keep (p.after c) rest := by
  have hskip : ∀ (d : Char) (ds : List Char) (q : Position), isBlank d = true →
      scanFrom keep q (d :: ds) =
        scanFrom keep (q.afterAll (d :: ds.takeWhile isBlank)) (ds.dropWhile isBlank) := by
    intro d ds q hd
    rw [scanFrom_cons, lexeme, if_pos hd]
    rfl
  rw [hskip c rest p hc]
  cases rest with
  | nil => rfl
  | cons d ds =>
    by_cases hd : isBlank d = true
    · rw [hskip d ds _ hd, List.takeWhile_cons_of_pos hd, List.dropWhile_cons_of_pos hd]
      rfl
    · rw [List.takeWhile_cons_of_neg hd, List.dropWhile_cons_of_neg hd]
      rfl

/-- A comment is skipped where nothing goes on with it. -/
theorem scanFrom_comment (h : start.Stops (w ++ rest) s w rest)
    (hs : s = .lineComment ∨ s = .blockCommentEnd) :
    scanFrom false p (w ++ rest) = scanFrom false (p.afterAll w) rest := by
  have hcut : accept s w rest = some ⟨.token .comment .plain, w, rest⟩ := by
    rcases hs with rfl | rfl
    · rfl
    · rfl
  exact scanFrom_of_stops h hcut

theorem scanFrom_filler (hw : w ∈ fillers) :
    scanFrom false p (w ++ rest) = scanFrom false (p.afterAll w) rest := by
  rcases hw with (⟨c, hc, rfl⟩ | hblock) | hline
  · exact scanFrom_blank hc
  · have hstops : start.Stops (w ++ rest) .blockCommentEnd w rest :=
      ⟨rfl, run_start.2 hblock, fun _ _ => rfl⟩
    exact scanFrom_comment hstops (.inr rfl)
  · obtain ⟨v, hv, _, rfl, rfl⟩ := Language.mem_mul.1 hline
    have hend : ∀ c ∈ ('\n' :: rest).head?, State.lineComment.after c = none := by
      intro c hc
      obtain rfl := Option.some.inj hc
      rfl
    have hstops : start.Stops (v ++ '\n' :: rest) .lineComment v ('\n' :: rest) :=
      ⟨rfl, run_start.2 hv, hend⟩
    rw [List.append_assoc, List.singleton_append, scanFrom_comment hstops (.inl rfl),
      scanFrom_blank rfl, Position.afterAll_append]
    rfl

theorem scanFrom_fillers (hw : w ∈ fillers∗) :
    scanFrom false p (w ++ rest) = scanFrom false (p.afterAll w) rest := by
  obtain ⟨ws, rfl, hws⟩ := Language.mem_kstar.1 hw
  clear hw
  induction ws generalizing p with
  | nil => rfl
  | cons v ws ih =>
    obtain ⟨hv, hmore⟩ := List.forall_mem_cons.1 hws
    rw [List.flatten_cons, List.append_assoc, scanFrom_filler hv, ih hmore,
      Position.afterAll_append]

theorem scanFrom_separator (hw : w ∈ separators) :
    scanFrom false p (w ++ rest) = scanFrom false (p.afterAll w) rest := by
  obtain ⟨_, ⟨c, hc, rfl⟩, v, hv, rfl⟩ := Language.mem_mul.1 hw
  have hsplit : [c] ++ v ++ rest = c :: (v ++ rest) := rfl
  rw [hsplit, scanFrom_blank hc, scanFrom_fillers hv]
  rfl

/-! ### Tokens -/

/-- Behind a token the automaton stops at a blank, unless the token is a comment. -/
theorem stuck_blank (h : accept s w [] = some ⟨.token kind literal, v, more⟩)
    (hkind : kind ≠ .comment) (hc : isBlank c = true) : s.after c = none := by
  cases s with
  | start | blank | str | blockComment => cases h
  | lineComment =>
    cases h
    exact absurd rfl hkind
  | _ =>
    rcases blank_cases hc with rfl | rfl | rfl | rfl
    all_goals rfl

/-- What the automaton says of a token is the same in front of any text. -/
theorem accept_rest (rest : List Char)
    (h : accept s w [] = some ⟨.token kind literal, w, []⟩) :
    accept s w rest = some ⟨.token kind literal, w, rest⟩ := by
  cases s with
  | start => cases h
  | integerDot =>
    -- the point that is given back would be left over
    have hpoint := congrArg Cut.rest (Option.some.inj h)
    cases hpoint
  | slash | operator | less | dot | doubleDot | symbol =>
    simp only [accept, Option.map_eq_some_iff, Cut.mk.injEq, and_true] at h ⊢
    exact h
  | _ =>
    simp only [accept, Option.some.injEq, Cut.mk.injEq, and_true] at h ⊢
    exact h

/-- A token that stands alone is read where the automaton stops behind it. -/
theorem scanFrom_alone (ht : t.Alone) (hkind : t.kind ≠ .comment)
    (hrun : start.run t.text.toList = some s) (hstuck : ∀ c ∈ rest.head?, s.after c = none) :
    scanFrom false p (t.text.toList ++ rest) = .ok { t with position := p } ::
      scanFrom false (p.afterAll t.text.toList) rest := by
  obtain ⟨s', hrun', haccept⟩ := ht
  obtain rfl : s = s' := Option.some.inj (hrun.symm.trans hrun')
  rw [scanFrom_of_stops ⟨rfl, hrun, hstuck⟩ (accept_rest rest haccept)]
  have hresult : Cut.result? ⟨.token t.kind t.literal, t.text.toList, rest⟩ false p =
      some (.ok { t with position := p }) := by
    simp [Cut.result?, hkind]
  rw [hresult]
  rfl

/-- A token that stands alone is read in front of a blank and at the end of a text. -/
theorem scanFrom_token (ht : t.Alone) (hkind : t.kind ≠ .comment)
    (hrest : ∀ c ∈ rest.head?, isBlank c = true) :
    scanFrom false p (t.text.toList ++ rest) = .ok { t with position := p } ::
      scanFrom false (p.afterAll t.text.toList) rest := by
  obtain ⟨s, hrun, haccept⟩ := ht
  apply scanFrom_alone ⟨s, hrun, haccept⟩ hkind hrun
  intro c hc
  exact stuck_blank haccept hkind (hrest c hc)

/-- The texts of tokens with separators between them are read as these tokens. -/
theorem scanFrom_spread {ts : List Token} {seps : List (List Char)}
    (hts : ∀ t ∈ ts, t.Alone ∧ t.kind ≠ .comment) (hseps : ∀ u ∈ seps, u ∈ separators)
    (hlength : ts.length ≤ seps.length + 1) :
    ∃ ts' : List Token,
      scanFrom false p (spread (ts.map fun t => t.text.toList) seps) = ts'.map .ok ∧
      ts'.map content = ts.map content := by
  induction ts generalizing p seps with
  | nil =>
    refine ⟨[], ?_, rfl⟩
    rw [List.map_nil, spread, scanFrom]
    rfl
  | cons t ts ih =>
    obtain ⟨⟨ht, hkind⟩, hmore⟩ := List.forall_mem_cons.1 hts
    cases seps with
    | nil =>
      -- no separator is left, so this is the last token
      have hzero : ts.length ≤ 0 := Nat.le_of_succ_le_succ hlength
      obtain rfl : ts = [] := List.length_eq_zero_iff.1 (Nat.le_zero.1 hzero)
      have hread : scanFrom false p (t.text.toList ++ []) = .ok { t with position := p } ::
          scanFrom false (p.afterAll t.text.toList) [] := by
        apply scanFrom_token ht hkind
        intro c hc
        cases hc
      refine ⟨[{ t with position := p }], ?_, rfl⟩
      rw [List.map_cons, List.map_nil, spread, spread, hread, scanFrom]
      rfl
    | cons u seps =>
      obtain ⟨hu, hus⟩ := List.forall_mem_cons.1 hseps
      have hblank : ∀ more, ∀ c ∈ (u ++ more).head?, isBlank c = true := by
        obtain ⟨_, ⟨d, hd, rfl⟩, v, hv, rfl⟩ := Language.mem_mul.1 hu
        intro more c hc
        obtain rfl := Option.some.inj hc
        exact hd
      obtain ⟨ts', hscan, hcontent⟩ :=
        ih (p := (p.afterAll t.text.toList).afterAll u) hmore hus (Nat.le_of_succ_le_succ hlength)
      refine ⟨{ t with position := p } :: ts', ?_, ?_⟩
      · rw [List.map_cons, spread, List.append_assoc, scanFrom_token ht hkind (hblank _),
          scanFrom_separator hu, hscan]
        rfl
      · rw [List.map_cons, List.map_cons, hcontent]
        rfl

/-! ### Texts -/

theorem kind_ne_comment (h : cut.result? false p = some (.ok t)) : t.kind ≠ .comment := by
  intro hkind
  unfold Cut.result? at h
  split at h
  · cases h
  · cases h
  · split at h
    · cases h
    · rename_i hkeep
      cases h
      apply hkeep
      rw [Bool.and_eq_true]
      exact ⟨decide_eq_true hkind, rfl⟩

/-- Where comments are dropped no token is a comment. -/
theorem scanFrom_kind_ne_comment (p : Position) (w : List Char) :
    ∀ t, .ok t ∈ scanFrom false p w → t.kind ≠ .comment := by
  intro t ht
  fun_induction scanFrom false p w with
  | case1 => cases ht
  | case2 p c cs cut results r hr ih =>
    rcases List.mem_cons.1 ht with rfl | ht
    · exact kind_ne_comment hr
    · exact ih ht
  | case3 p c cs cut results hr ih => exact ih ht

theorem scanAll_of_scan {text : String} {ts : List Token} (h : scan text keep = ts.map .ok) :
    scanAll text keep = .ok ts := by
  have herrors : ∀ ts : List Token, errors (ts.map .ok) = [] := by
    intro ts
    induction ts with
    | nil => rfl
    | cons t ts ih => exact ih
  have htokens : ∀ ts : List Token, tokens (ts.map .ok) = ts := by
    intro ts
    induction ts with
    | nil => rfl
    | cons t ts ih => exact congrArg (t :: ·) ih
  unfold scanAll
  dsimp only
  rw [h, herrors, htokens]

/-- The texts of the tokens of a text, in order and with any separators between them, are read as
tokens of the same kinds, texts and values. -/
theorem scanAll_spread {text : String} {ts : List Token} {seps : List (List Char)}
    (h : scanAll text false = .ok ts) (hseps : ∀ u ∈ seps, u ∈ separators)
    (hlength : ts.length ≤ seps.length + 1) :
    ∃ ts', scanAll (String.ofList (spread (ts.map fun t => t.text.toList) seps)) false = .ok ts' ∧
      ts'.map content = ts.map content := by
  have hts : ∀ t ∈ ts, t.Alone ∧ t.kind ≠ .comment := by
    intro t ht
    have hscan : .ok t ∈ scan text false := by
      rw [scan_of_scanAll h]
      exact List.mem_map_of_mem ht
    exact ⟨alone_of_scanAll h t ht, scanFrom_kind_ne_comment _ _ t hscan⟩
  obtain ⟨ts', hscan, hcontent⟩ := scanFrom_spread (p := Position.start) hts hseps hlength
  refine ⟨ts', scanAll_of_scan ?_, hcontent⟩
  rw [scan, String.toList_ofList, hscan]

/-- A range and a comment among the lexemes, and comments of both sorts between the tokens. -/
theorem scanAll_spread_range :
    ∃ text ts seps, text = "1..5\x7b,\x7d;" ∧ scanAll text false = .ok ts ∧
      seps = [[' '], ['\t', '/', '/', ';', '\n', '\r'], ['\n', '\x7b', 'ü', '\x7d']] ∧
      (∀ u ∈ seps, u ∈ separators) ∧ ts.length ≤ seps.length + 1 ∧
      ∃ ts', scanAll (String.ofList (spread (ts.map fun t => t.text.toList) seps)) false = .ok ts' ∧
        ts'.map content = ts.map content := by
  have hcount : (scanAll "1..5\x7b,\x7d;" false).toOption.map List.length = some 4 := by cbv
  have hseps : ∀ u ∈ [[' '], ['\t', '/', '/', ';', '\n', '\r'], ['\n', '\x7b', 'ü', '\x7d']],
      u ∈ separators := by
    -- each separator is a blank and then any comments
    have hline : ['/', '/'] ++ [';'] ++ ['\n'] ∈ fillers := by
      have hinside : [';'] ∈ (one (· ≠ '\n'))∗ := mem_star_of_mem (mem_one_of rfl)
      exact .inr (Language.append_mem_mul (Language.append_mem_mul (Set.mem_singleton _) hinside)
        (Set.mem_singleton _))
    have hblock : ['\x7b'] ++ ['ü'] ++ ['\x7d'] ∈ fillers := by
      have hinside : ['ü'] ∈ (one (· ≠ '\x7d'))∗ := mem_star_of_mem (mem_one_of rfl)
      exact .inl (.inr (Language.append_mem_mul
        (Language.append_mem_mul (Set.mem_singleton _) hinside) (Set.mem_singleton _)))
    have hreturn : ['\r'] ∈ fillers := .inl (.inl (mem_one_of rfl))
    have hmore : ['/', '/'] ++ [';'] ++ ['\n'] ++ ['\r'] ∈ fillers∗ :=
      snoc_mem_star (mem_star_of_mem hline) hreturn
    simp only [List.forall_mem_cons]
    refine ⟨?_, ?_, ?_, List.forall_mem_nil _⟩
    · exact Language.append_mem_mul (mem_one_of (c := ' ') rfl) (Language.nil_mem_kstar _)
    · exact Language.append_mem_mul (mem_one_of (c := '\t') rfl) hmore
    · exact Language.append_mem_mul (mem_one_of (c := '\n') rfl) (mem_star_of_mem hblock)
  cases h : scanAll "1..5\x7b,\x7d;" false with
  | error e =>
    rw [h] at hcount
    cases hcount
  | ok ts =>
    rw [h] at hcount
    have hlength : ts.length = 4 := Option.some.inj hcount
    have hle : ts.length ≤ 3 + 1 := Nat.le_of_eq hlength
    exact ⟨_, ts, _, rfl, h, rfl, hseps, hle, scanAll_spread h hseps hle⟩

end MiniPascal.Token
