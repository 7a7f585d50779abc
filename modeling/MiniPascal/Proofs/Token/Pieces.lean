import MiniPascal.Proofs.Token.Recognition

/-! How the results of a text lie in it. -/

namespace MiniPascal

namespace Position

/-- Whether a position comes before another one. -/
def Before (p q : Position) : Prop := p.line < q.line ∨ p.line = q.line ∧ p.column < q.column

variable {p q r : Position}

theorem compare_eq_lt : compare p q = .lt ↔ p.Before q := by
  have hcompare : compare p q = (compare p.line q.line).then (compare p.column q.column) := rfl
  rw [hcompare, Ordering.then_eq_lt, Nat.compare_eq_lt, Nat.compare_eq_lt, Nat.compare_eq_eq]
  exact Iff.rfl

theorem Before.trans (h : p.Before q) (h' : q.Before r) : p.Before r := by
  unfold Before at h h' ⊢
  omega

theorem before_after (p : Position) (c : Char) : p.Before (p.after c) := by
  unfold after
  split
  · apply Or.inl
    exact Nat.lt_succ_self p.line
  · split
    · apply Or.inr
      have htab : p.tab.column = 1 + ((p.column - 1) / 4 + 1) * 4 := rfl
      have hline : p.line = p.tab.line := rfl
      constructor
      · exact hline
      · omega
    · apply Or.inr
      exact ⟨rfl, Nat.lt_succ_self p.column⟩

/-- Reading on leads to later positions. -/
theorem before_afterAll (p : Position) {w : List Char} (hw : w ≠ []) :
    p.Before (p.afterAll w) := by
  induction w generalizing p with
  | nil => exact absurd rfl hw
  | cons c w ih =>
    have hfirst : p.Before (p.after c) := p.before_after c
    by_cases hnil : w = []
    · subst hnil
      exact hfirst
    · exact hfirst.trans (ih (p.after c) hnil)

end Position

namespace Token

open Computability State

/-- The position of a token or of an error. -/
def positionOf : Result → Position
  | .ok t => t.position
  | .error e => e.position

/-- What stands between lexemes: blanks, and comments unless these are kept. -/
def gaps (keep : Bool) : Language Char :=
  if keep then (one isBlank)∗ else (one isBlank + comments)∗

/-- The lexeme that a result has been read from. That of a token is the text of the token, and that
of an error is all that is skipped for it. -/
inductive Reports : Result → List Char → Prop
  | token (t : Token) : Reports (.ok t) t.text.toList
  | unknown (p : Position) (c : Char) : Reports (.error ⟨p, .unknownSymbol c⟩) [c]
  | malformed (p : Position) (w : List Char) (hw : Begins (integers + doubles) w) :
    Reports (.error ⟨p, .malformedNumber (String.ofList w)⟩) w
  | overflow (p : Position) {w ds : List Char} {base : Nat} (hw : w ∈ integers)
    (hn : numeral w = (base, ds)) : Reports (.error ⟨p, .integerOverflow (String.ofList ds)⟩) w
  | openString (p : Position) {w : List Char} (hw : w ∉ strings) (hb : Begins strings w) :
    Reports (.error ⟨p, .unterminatedString⟩) w
  | openComment (p : Position) {w : List Char} (hw : w ∉ comments) (hb : Begins comments w) :
    Reports (.error ⟨p, .unterminatedComment⟩) w

/-- The results lie in a text that stands behind the characters `before`. -/
inductive Laid (keep : Bool) : List Char → List Char → List Result → Prop
  | last {before gap : List Char} (hgap : gap ∈ gaps keep) : Laid keep before gap []
  | next {before gap w rest : List Char} {c : Char} {r : Result} {rs : List Result}
    (hgap : gap ∈ gaps keep) (hblank : isBlank c = false) (hr : Reports r (c :: w))
    (hp : positionOf r = Position.start.afterAll (before ++ gap))
    (hrs : Laid keep (before ++ gap ++ c :: w) rest rs) :
    Laid keep before (gap ++ c :: w ++ rest) (r :: rs)

variable {keep : Bool} {p : Position} {s : State} {c : Char} {cs u v w rest more before : List Char}
  {r : Result} {rs : List Result} {cut : Cut}

/-! ### One piece -/

theorem Reports.eq_text (h : Reports r w) {t : Token} (ht : r = .ok t) : w = t.text.toList := by
  cases h with
  | token t' =>
    obtain rfl := Except.ok.inj ht
    rfl
  | _ => cases ht

theorem append_mem_star {l : Language Char} (hu : u ∈ l∗) (hv : v ∈ l∗) : u ++ v ∈ l∗ := by
  have huv : u ++ v ∈ l∗ * l∗ := Language.append_mem_mul hu hv
  rwa [kstar_mul_kstar] at huv

theorem nil_mem_gaps : [] ∈ gaps keep := by
  unfold gaps
  split
  · exact Language.nil_mem_kstar _
  · exact Language.nil_mem_kstar _

theorem append_mem_gaps (hu : u ∈ gaps keep) (hv : v ∈ gaps keep) : u ++ v ∈ gaps keep := by
  unfold gaps at hu hv ⊢
  split
  · rename_i hkeep
    rw [if_pos hkeep] at hu hv
    exact append_mem_star hu hv
  · rename_i hkeep
    rw [if_neg hkeep] at hu hv
    exact append_mem_star hu hv

theorem mem_star_of_mem {l : Language Char} (hw : w ∈ l) : w ∈ l∗ := by
  have hle : l ≤ l∗ := le_kstar
  exact hle hw

theorem blanks_mem_gaps (hw : ∀ c ∈ w, isBlank c = true) : w ∈ gaps keep := by
  have hstar : w ∈ (one isBlank)∗ := mem_star_one.2 hw
  unfold gaps
  split
  · exact hstar
  · have hle : (one isBlank)∗ ≤ (one isBlank + comments)∗ := kstar_mono le_self_add
    exact hle hstar

theorem comment_mem_gaps (hw : w ∈ comments) : w ∈ gaps false := by
  apply mem_star_of_mem
  exact Or.inr hw

theorem mem_gaps_true (hw : w ∈ gaps true) : ∀ c ∈ w, isBlank c = true := mem_star_one.1 hw

theorem not_mem_of_not_mem_lexemes (hw : w ∉ lexemes) : w ∉ strings ∧ w ∉ comments := by
  constructor
  · intro hs
    exact hw (.inl (.inl (.inr hs)))
  · intro hc
    exact hw (.inl (.inr hc))

/-- A result that the grammar yields reports the characters that are read for it. -/
theorem Yields.reports {o : Option Result} (h : Yields keep p w rest o more)
    (htext : u ++ more = w ++ rest) (ho : o = some r) : positionOf r = p ∧ Reports r u := by
  -- but for a point that is not read, the piece is all of the longest beginning of a lexeme
  have hall : more = rest → u = w := by
    intro hmore
    rw [hmore] at htext
    exact List.append_cancel_right htext
  have htoken : ∀ kind literal, r = .ok ⟨p, kind, String.ofList u, literal⟩ →
      positionOf r = p ∧ Reports r u := by
    intro kind literal hr
    have hreports := Reports.token ⟨p, kind, String.ofList u, literal⟩
    rw [String.toList_ofList] at hreports
    subst hr
    exact ⟨rfl, hreports⟩
  cases h with
  | keyword | identifier | integer | fraction | scientific | string | symbol =>
    obtain rfl := hall rfl
    exact htoken _ _ (Option.some.inj ho).symm
  | comment =>
    obtain rfl := hall rfl
    split at ho
    · exact htoken _ _ (Option.some.inj ho).symm
    · cases ho
  | point =>
    have hu : u = _ := List.append_cancel_right (htext.trans (List.append_assoc _ ['.'] rest))
    subst hu
    exact htoken _ _ (Option.some.inj ho).symm
  | pointOverflow hds hle =>
    have hu : u = _ := List.append_cancel_right (htext.trans (List.append_assoc _ ['.'] rest))
    subst hu
    obtain rfl := Option.some.inj ho
    exact ⟨rfl, .overflow p (.inl (.inl (.inl hds))) (numeral_digits hds)⟩
  | overflow hw hn =>
    obtain rfl := hall rfl
    obtain rfl := Option.some.inj ho
    exact ⟨rfl, .overflow p hw hn⟩
  | malformed hne hw hb =>
    obtain rfl := hall rfl
    obtain rfl := Option.some.inj ho
    exact ⟨rfl, .malformed p u hb⟩
  | openString hne hw hb =>
    obtain rfl := hall rfl
    obtain rfl := Option.some.inj ho
    exact ⟨rfl, .openString p (not_mem_of_not_mem_lexemes hw).1 hb⟩
  | openComment hne hw hb =>
    obtain rfl := hall rfl
    obtain rfl := Option.some.inj ho
    exact ⟨rfl, .openComment p (not_mem_of_not_mem_lexemes hw).2 hb⟩
  | @unknown c _ =>
    have hu : u = [c] := List.append_cancel_right htext
    subst hu
    obtain rfl := Option.some.inj ho
    exact ⟨rfl, .unknown p c⟩

/-- Only comments yield nothing, and only where they are dropped. -/
theorem Yields.comment_of_none {o : Option Result} (h : Yields keep p w rest o more)
    (htext : u ++ more = w ++ rest) (ho : o = none) : keep = false ∧ u ∈ comments := by
  cases h with
  | comment hw =>
    have hu : u = w := List.append_cancel_right htext
    subst hu
    split at ho
    · cases ho
    · rename_i hkeep
      exact ⟨Bool.eq_false_of_not_eq_true hkeep, hw⟩
  | _ => cases ho

theorem Yields.exists_lexeme (keep : Bool) (p : Position) (c : Char) (cs : List Char)
    (hblank : isBlank c = false) : ∃ w rest, w ++ rest = c :: cs ∧
      Yields keep p w rest ((lexeme c cs).result? keep p) (lexeme c cs).rest := by
  obtain ⟨s, w, rest, h⟩ := exists_stops .start (c :: cs)
  have hs : s ≠ .blank := by
    intro hs
    subst hs
    have hw : w ∈ State.blank.reads := run_start.1 h.run
    obtain ⟨hne, hall⟩ := mem_many.1 hw
    obtain ⟨d, v, rfl⟩ := List.exists_cons_of_ne_nil hne
    obtain ⟨rfl, -⟩ := h.head
    have hc := hall c List.mem_cons_self
    rw [hblank] at hc
    cases hc
  exact ⟨w, rest, h.append, yields_of_accept h hs (accept_eq h)⟩

/-- A piece that gives a result starts with no blank and is the lexeme of the result. -/
theorem lexeme_reports (h : (lexeme c cs).result? keep p = some r) :
    isBlank c = false ∧ positionOf r = p ∧ Reports r (lexeme c cs).text := by
  have hblank : isBlank c = false := by
    rw [Bool.eq_false_iff]
    intro hc
    rw [lexeme, if_pos hc] at h
    cases h
  obtain ⟨w, rest, htext, hyields⟩ := Yields.exists_lexeme keep p c cs hblank
  have hpiece := (lexeme_append c cs).trans htext.symm
  exact ⟨hblank, hyields.reports hpiece h⟩

/-- A piece that gives no result is part of a gap. -/
theorem lexeme_mem_gaps (h : (lexeme c cs).result? keep p = none) :
    (lexeme c cs).text ∈ gaps keep := by
  by_cases hblank : isBlank c = true
  · have htext : (lexeme c cs).text = c :: cs.takeWhile isBlank := by rw [lexeme, if_pos hblank]
    rw [htext]
    apply blanks_mem_gaps
    intro d hd
    rcases List.mem_cons.1 hd with rfl | hd
    · exact hblank
    · exact List.all_eq_true.1 List.all_takeWhile d hd
  · have hblank := Bool.eq_false_of_not_eq_true hblank
    obtain ⟨w, rest, htext, hyields⟩ := Yields.exists_lexeme keep p c cs hblank
    have hpiece := (lexeme_append c cs).trans htext.symm
    obtain ⟨hkeep, hcomment⟩ := hyields.comment_of_none hpiece h
    rw [hkeep]
    exact comment_mem_gaps hcomment

theorem scanFrom_cons (keep : Bool) (p : Position) (c : Char) (cs : List Char) :
    scanFrom keep p (c :: cs) = ((lexeme c cs).result? keep p).toList ++
      scanFrom keep (p.afterAll (lexeme c cs).text) (lexeme c cs).rest := by
  rw [scanFrom]
  cases (lexeme c cs).result? keep p <;> rfl

/-! ### All pieces -/

namespace Laid

/-- A gap may go on with more of it in front. -/
theorem prepend {gap : List Char} (hgap : gap ∈ gaps keep) (h : Laid keep (before ++ gap) rest rs) :
    Laid keep before (gap ++ rest) rs := by
  cases h with
  | last hmore => exact .last (append_mem_gaps hgap hmore)
  | @next _ gap' w rest c r rs hgap' hblank hr hp hrs =>
    have hassoc : before ++ gap ++ gap' = before ++ (gap ++ gap') := List.append_assoc _ _ _
    rw [hassoc] at hp hrs
    have hnext := Laid.next (append_mem_gaps hgap hgap') hblank hr hp hrs
    simpa only [List.append_assoc] using hnext

/-- The positions are those of characters of the text. -/
theorem exists_position (h : Laid keep before w rs) : ∀ r ∈ rs, ∃ u c v rest,
    u ++ c :: v ++ rest = w ∧ isBlank c = false ∧ Reports r (c :: v) ∧
      positionOf r = Position.start.afterAll (before ++ u) := by
  induction h with
  | last _ =>
    intro r hr
    cases hr
  | @next before gap w rest c r rs hgap hblank hreports hp hrs ih =>
    intro r' hr'
    rcases List.mem_cons.1 hr' with rfl | hr'
    · exact ⟨gap, c, w, rest, rfl, hblank, hreports, hp⟩
    · obtain ⟨u, d, v, more, htext, hd, hreports', hp'⟩ := ih r' hr'
      refine ⟨gap ++ c :: w ++ u, d, v, more, ?_, hd, hreports', ?_⟩
      · rw [← htext]
        simp only [List.append_assoc]
      · rw [hp']
        simp only [List.append_assoc]

/-- Positions increase along the results. -/
theorem increasing (h : Laid keep before w rs) :
    rs.Pairwise fun r r' => (positionOf r).Before (positionOf r') := by
  induction h with
  | last _ => exact List.Pairwise.nil
  | @next before gap w rest c r rs hgap hblank hreports hp hrs ih =>
    apply List.Pairwise.cons _ ih
    intro r' hr'
    obtain ⟨u, -, -, -, -, -, -, hp'⟩ := hrs.exists_position r' hr'
    have hmore : before ++ gap ++ c :: w ++ u = (before ++ gap) ++ (c :: w ++ u) :=
      List.append_assoc _ _ _
    rw [hp, hp', hmore, Position.afterAll_append _ (before ++ gap)]
    apply Position.before_afterAll
    exact List.cons_ne_nil c (w ++ u)

end Laid

/-- The results of a text lie in it. -/
theorem laid_scanFrom (keep : Bool) (before cs : List Char) :
    Laid keep before cs (scanFrom keep (Position.start.afterAll before) cs) := by
  match cs with
  | [] =>
    rw [scanFrom]
    exact .last nil_mem_gaps
  | c :: cs =>
    have hrest := laid_scanFrom keep (before ++ (lexeme c cs).text) (lexeme c cs).rest
    rw [Position.afterAll_append] at hrest
    rw [scanFrom_cons, ← lexeme_append c cs]
    cases hresult : (lexeme c cs).result? keep (Position.start.afterAll before) with
    | none =>
      -- the piece joins the gap in front of what follows
      exact hrest.prepend (lexeme_mem_gaps hresult)
    | some r =>
      obtain ⟨hblank, hp, hreports⟩ := lexeme_reports hresult
      obtain ⟨v, hv, -⟩ := lexeme_of c cs
      rw [hv] at hreports hrest ⊢
      -- no gap stands in front of the piece
      rw [← List.append_nil before] at hrest
      have hplace : positionOf r = Position.start.afterAll (before ++ []) := by
        rw [hp, List.append_nil]
      have hnext := Laid.next nil_mem_gaps hblank hreports hplace hrest
      rwa [List.append_nil before] at hnext
termination_by cs.length
decreasing_by exact Nat.lt_succ_of_le (lexeme_rest_le c cs)

theorem laid_scan (text : String) (keep : Bool) :
    Laid keep [] text.toList (scan text keep) :=
  laid_scanFrom keep [] text.toList

/-- Lexemes with gaps behind them. -/
def spread : List (List Char) → List (List Char) → List Char
  | [], _ => []
  | w :: ws, [] => w ++ spread ws []
  | w :: ws, gap :: gaps => w ++ gap ++ spread ws gaps

/-- Where nothing but blanks gives no result, the texts of the tokens and the blanks between them
make up the text. -/
theorem Laid.exists_gaps {ts : List Token} (h : Laid true before w (ts.map .ok)) :
    ∃ gap gs, gs.length = ts.length ∧ (∀ g ∈ gap :: gs, ∀ c ∈ g, isBlank c = true) ∧
      w = gap ++ spread (ts.map fun t => t.text.toList) gs := by
  induction ts generalizing before w with
  | nil =>
    cases h with
    | last hgap =>
      refine ⟨w, [], rfl, ?_, (List.append_nil w).symm⟩
      exact List.forall_mem_singleton.2 (mem_gaps_true hgap)
  | cons t ts ih =>
    cases h with
    | @next _ gap v rest c _ _ hgap hblank hreports hp hrs =>
      obtain ⟨gap', gs, hlength, hblanks, hrest⟩ := ih hrs
      have htext : c :: v = t.text.toList := hreports.eq_text rfl
      refine ⟨gap, gap' :: gs, by simp [hlength], ?_, ?_⟩
      · exact List.forall_mem_cons.2 ⟨mem_gaps_true hgap, hblanks⟩
      · rw [hrest, List.map_cons, spread, ← htext]
        simp only [List.append_assoc]

end Token

end MiniPascal
