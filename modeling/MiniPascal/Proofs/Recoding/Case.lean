import MiniPascal.Ir.Text
import MiniPascal.Proofs.Recoding.Lexeme
import MiniPascal.Proofs.Recoding.Lowering
import MiniPascal.Proofs.Recoding.Program
import MiniPascal.Proofs.Token.Pieces

/-! Compiling does not look at the case of letters outside strings. -/

namespace MiniPascal

namespace Token

/-- Whether the piece is a string. -/
def Cut.isString (cut : Cut) : Bool :=
  match cut.verdict with
  | .token .string _ => true
  | _ => false

/-- Which characters of a text belong to strings. -/
def inStrings : List Char → List Bool
  | [] => []
  | c :: cs =>
    let cut := lexeme c cs
    List.replicate cut.text.length cut.isString ++ inStrings cut.rest
termination_by cs => cs.length
decreasing_by exact Nat.lt_succ_of_le (lexeme_rest_le c cs)

theorem Cut.exists_of_isString {cut : Cut} (h : cut.isString = true) :
    ∃ literal, cut.verdict = .token .string literal := by
  unfold isString at h
  split at h
  · rename_i literal hverdict
    exact ⟨literal, hverdict⟩
  · cases h

theorem length_inStrings (cs : List Char) : (inStrings cs).length = cs.length := by
  fun_induction inStrings cs with
  | case1 => rfl
  | case2 c cs cut ih =>
    have hlength := congrArg List.length (lexeme_append c cs)
    rw [List.length_append] at hlength
    rw [List.length_append, List.length_replicate, ih]
    exact hlength

/-- Texts of one length that differ at most in the case of letters outside the strings of the
first. -/
structure Recased (t u : List Char) : Prop where
  length : t.length = u.length
  chars : ∀ c d inString, (c, d, inString) ∈ t.zip (u.zip (inStrings t)) →
    c = d ∨ c.toLower = d.toLower ∧ inString = false

theorem map_eq_of_zip {α : Type} {f : Char → α} {t u : List Char} {m : List Bool}
    (hu : t.length = u.length) (hm : t.length = m.length)
    (h : ∀ c d b, (c, d, b) ∈ t.zip (u.zip m) → f c = f d) : t.map f = u.map f := by
  induction t generalizing u m with
  | nil =>
    rw [List.eq_nil_of_length_eq_zero hu.symm]
  | cons c t ih =>
    obtain ⟨d, u, rfl⟩ := List.exists_cons_of_length_eq_add_one hu.symm
    obtain ⟨b, m, rfl⟩ := List.exists_cons_of_length_eq_add_one hm.symm
    simp only [List.zip_cons_cons, List.mem_cons] at h
    rw [List.map_cons, List.map_cons, h c d b (.inl rfl)]
    rw [ih (by simpa using hu) (by simpa using hm) fun c d b hx => h c d b (.inr hx)]

namespace Recased

variable {t u : List Char}

theorem lower (h : Recased t u) : t.map Char.toLower = u.map Char.toLower := by
  refine map_eq_of_zip h.length (length_inStrings t).symm fun c d b hx => ?_
  rcases h.chars c d b hx with rfl | hlower
  · rfl
  · exact hlower.1

/-- The automaton stops at the same places. -/
theorem stops (h : Recased t u) {s : State} {w rest : List Char}
    (hs : State.start.Stops t s w rest) :
    ∃ w' rest', State.start.Stops u s w' rest' ∧
      w.map Char.toLower = w'.map Char.toLower ∧
      rest.map Char.toLower = rest'.map Char.toLower := by
  have hlower := h.lower
  rw [← hs.append, List.map_append] at hlower
  -- the second text is split behind as many characters
  have hw : w.map Char.toLower = (u.take w.length).map Char.toLower := by
    rw [List.map_take, ← hlower, ← List.length_map Char.toLower, List.take_left]
  have hrest : rest.map Char.toLower = (u.drop w.length).map Char.toLower := by
    rw [List.map_drop, ← hlower, ← List.length_map Char.toLower, List.drop_left]
  refine ⟨_, _, ⟨List.take_append_drop w.length u, ?_, fun d hd => ?_⟩, hw, hrest⟩
  · rw [← run_toLower, ← hw, run_toLower, hs.run]
  · -- the next characters agree in lower case, so neither has an edge
    have hhead := congrArg List.head? hrest
    rw [List.head?_map, List.head?_map, Option.mem_def.1 hd] at hhead
    obtain ⟨c, hc, hcd⟩ := Option.map_eq_some_iff.1 hhead
    rw [← after_toLower, ← hcd, after_toLower]
    exact hs.stuck c hc

end Recased

theorem zip_append_append {a a' b b' : List Char} {m m' : List Bool} (ha : a.length = a'.length)
    (hm : a.length = m.length) :
    (a ++ b).zip ((a' ++ b').zip (m ++ m')) = a.zip (a'.zip m) ++ b.zip (b'.zip m') := by
  have hzip : a.length = (a'.zip m).length := by
    rw [List.length_zip]
    omega
  rw [List.zip_append (ha.symm.trans hm), List.zip_append hzip]

/-- Pieces at the start of such texts are the same in lower case, and equal if they are strings. -/
theorem Recased.cut_lexeme {c d : Char} {cs ds : List Char} (h : Recased (c :: cs) (d :: ds)) :
    Recoding.folding.cut (lexeme c cs) = Recoding.folding.cut (lexeme d ds) ∧
      ((lexeme c cs).isString = true → (lexeme c cs).text = (lexeme d ds).text) := by
  obtain ⟨s, w, rest, hs⟩ := State.exists_stops .start (c :: cs)
  obtain ⟨w', rest', hs', hw, hrest⟩ := h.stops hs
  have haccept := accept_eq hs
  have haccept' := accept_eq hs'
  -- only what is read of a string is not the same in lower case
  by_cases hstring : s = .strQuote
  · subst hstring
    rw [accept] at haccept haccept'
    have hcut := Option.some.inj haccept
    have hin : inStrings (c :: cs) = List.replicate w.length true ++ inStrings rest := by
      rw [inStrings, ← hcut]
      rfl
    have hlength : w.length = w'.length := by simpa using congrArg List.length hw
    -- in a string no character differs
    have hsame : w.map id = w'.map id := by
      refine map_eq_of_zip hlength (List.length_replicate (a := true)).symm fun x y b hx => ?_
      have hmem : (x, y, b) ∈ (c :: cs).zip ((d :: ds).zip (inStrings (c :: cs))) := by
        rw [hin, ← hs.append, ← hs'.append,
          zip_append_append hlength (List.length_replicate (a := true)).symm]
        exact List.mem_append_left _ hx
      have hb : b = true :=
        List.eq_of_mem_replicate (List.of_mem_zip (List.of_mem_zip hx).2).2
      rcases h.chars x y b hmem with rfl | ⟨-, hfalse⟩
      · rfl
      · rw [hb] at hfalse
        cases hfalse
    obtain rfl : w = w' := by simpa using hsame
    rw [← hcut, ← Option.some.inj haccept']
    refine ⟨?_, fun _ => rfl⟩
    simp only [Recoding.cut]
    exact congrArg _ hrest
  · have hfold := Recoding.accept_folding hstring haccept
    have hfold' := Recoding.accept_folding hstring haccept'
    rw [hw, hrest] at hfold
    refine ⟨Option.some.inj (hfold.symm.trans hfold'), fun his => ?_⟩
    obtain ⟨literal, hverdict⟩ := Cut.exists_of_isString his
    exact absurd (accept_string (accept_of_verdict hs hverdict)).1 hstring

theorem Recased.rest {c d : Char} {cs ds : List Char} (h : Recased (c :: cs) (d :: ds)) :
    Recased (lexeme c cs).rest (lexeme d ds).rest := by
  obtain ⟨hcut, -⟩ := h.cut_lexeme
  have htext := congrArg (fun x : Cut => x.text.length) hcut
  have hrest := congrArg (fun x : Cut => x.rest.length) hcut
  simp only [Recoding.cut, List.length_map] at htext hrest
  refine ⟨hrest, fun x y b hx => h.chars x y b ?_⟩
  rw [inStrings, ← lexeme_append c cs, ← lexeme_append d ds,
    zip_append_append htext List.length_replicate.symm]
  exact List.mem_append_right _ hx

/-- What a piece gives is the same in lower case. -/
theorem result?_folding {x y : Cut} (hcut : Recoding.folding.cut x = Recoding.folding.cut y)
    (hstring : x.isString = true → x.text = y.text)
    (hend : ∀ kind literal, x.verdict = .token kind literal → kind ≠ .endOfFile) (keep : Bool)
    (p : Position) :
    (x.result? keep p).map Recoding.folding.result =
      (y.result? keep p).map Recoding.folding.result := by
  obtain ⟨v, w, rest⟩ := x
  obtain ⟨v', w', rest'⟩ := y
  simp only [Recoding.cut, Cut.mk.injEq] at hcut
  obtain ⟨hverdict, htext, -⟩ := hcut
  cases v with
  | blanks =>
    cases v' with
    | blanks => rfl
    | _ => cases hverdict
  | failure e =>
    cases v' with
    | failure e' =>
      have herror := Verdict.failure.inj hverdict
      simp only [Cut.result?, Option.map_some, Recoding.result, Recoding.located, herror]
    | _ => cases hverdict
  | token kind literal =>
    cases v' with
    | token kind' literal' =>
      obtain ⟨rfl, rfl⟩ := Verdict.token.inj hverdict
      have hkind := hend kind literal rfl
      have hresult : Recoding.folding.result (.ok ⟨p, kind, String.ofList w, literal⟩) =
          Recoding.folding.result (.ok ⟨p, kind, String.ofList w', literal⟩) := by
        -- only the text of a string keeps its case, and that is the same in both
        by_cases hs : kind = .string
        · subst hs
          obtain rfl : w = w' := hstring rfl
          rfl
        · simp only [Recoding.result, Recoding.token, if_neg hkind, if_neg hs,
            Recoding.ofList_folding]
          rw [show w.map Char.toLower = w'.map Char.toLower from htext]
      simp only [Cut.result?]
      split
      · rfl
      · exact congrArg some hresult
    | _ => cases hverdict

theorem afterAll_toLower (p : Position) (w : List Char) :
    p.afterAll (w.map Char.toLower) = p.afterAll w := by
  have hafter : ∀ (p : Position) (c : Char), p.after c.toLower = p.after c := by
    intro p c
    simp only [Position.after, toLower_eq_iff (d := '\n') rfl, toLower_eq_iff (d := '\t') rfl]
  simp only [Position.afterAll, List.foldl_map, hafter]

/-- The tokens and errors are the same in lower case. -/
theorem scanFrom_recased (keep : Bool) (p : Position) {t u : List Char} (h : Recased t u) :
    (scanFrom keep p t).map Recoding.folding.result =
      (scanFrom keep p u).map Recoding.folding.result := by
  match t, u with
  | [], [] => rfl
  | [], d :: ds => cases h.length
  | c :: cs, [] => cases h.length
  | c :: cs, d :: ds =>
    obtain ⟨hcut, hstring⟩ := h.cut_lexeme
    have hend : ∀ kind literal, (lexeme c cs).verdict = .token kind literal →
        kind ≠ .endOfFile := by
      intro kind literal hverdict
      obtain ⟨s, w, rest, hs⟩ := State.exists_stops .start (c :: cs)
      exact accept_ne_endOfFile (accept_of_verdict hs hverdict)
    have hresult := result?_folding hcut hstring hend keep p
    have htext : (lexeme c cs).text.map Char.toLower = (lexeme d ds).text.map Char.toLower :=
      congrArg Cut.text hcut
    have hposition : p.afterAll (lexeme c cs).text = p.afterAll (lexeme d ds).text := by
      rw [← afterAll_toLower, htext, afterAll_toLower]
    have htail := scanFrom_recased keep (p.afterAll (lexeme c cs).text) h.rest
    rw [scanFrom_cons, scanFrom_cons, List.map_append, List.map_append, htail, hposition]
    rw [← Option.toList_map, ← Option.toList_map, hresult]
termination_by t.length
decreasing_by exact Nat.lt_succ_of_le (lexeme_rest_le c cs)

end Token

open Recoding

theorem Cursor.ofText_recased {text text' : String} (h : Token.Recased text.toList text'.toList) :
    folding.read folding.cursor (ofText text) = folding.read folding.cursor (ofText text') := by
  have hscan := Token.scanFrom_recased false Position.start h
  have hstop : Token.endPosition text = Token.endPosition text' := by
    rw [Token.endPosition, ← Token.afterAll_toLower, h.lower, Token.afterAll_toLower]
    rfl
  have hcursor : folding.cursor ⟨.endOfFile (Token.endPosition text), Token.scan text false,
        Token.endPosition text⟩ =
      folding.cursor ⟨.endOfFile (Token.endPosition text'), Token.scan text' false,
        Token.endPosition text'⟩ := by
    simp only [cursor, Token.scan, hscan, hstop]
  have hadvance := folding.advance_cursor ⟨.endOfFile (Token.endPosition text),
    Token.scan text false, Token.endPosition text⟩
  have hadvance' := folding.advance_cursor ⟨.endOfFile (Token.endPosition text'),
    Token.scan text' false, Token.endPosition text'⟩
  rw [hcursor] at hadvance
  exact hadvance.symm.trans hadvance'

/-- What is read is the same in lower case. -/
theorem Program.ofText_recased {text text' : String} (name : String)
    (h : Token.Recased text.toList text'.toList) :
    folding.read folding.program (ofText text name) =
      folding.read folding.program (ofText text' name) := by
  -- reading the tokens in lower case gives the program in lower case
  have hread : ∀ s, folding.read folding.program (ofText s name) =
      (folding.read folding.cursor (Cursor.ofText s) >>= fun c =>
        ofCursor (folding.text name) c) := by
    intro s
    unfold ofText
    have hcursor : folding.Recodes folding.cursor (Cursor.ofText s)
        (folding.read folding.cursor (Cursor.ofText s)) := rfl
    exact (hcursor.bind (folding.program_cursor name)).symm
  rw [hread, hread, Cursor.ofText_recased h]

/-- Texts that differ in the case of letters outside strings both fail, with faults of one phase and
kind at one place, or are both compiled to one text. -/
theorem Program.compile_recased {text text' name : String}
    (h : Token.Recased text.toList text'.toList) :
    (∃ e e', compile text name = .error e ∧ compile text' name = .error e' ∧
        e.value.phase = e'.value.phase ∧ e.value.kind = e'.value.kind ∧
        e.position = e'.position) ∨
      ∃ ir ir', compile text name = .ok ir ∧ compile text' name = .ok ir' ∧
        ir.emit.text = ir'.emit.text := by
  have hread := ofText_recased name h
  cases hp : ofText text name with
  | error e =>
    cases hp' : ofText text' name with
    | ok p' =>
      rw [hp, hp'] at hread
      cases hread
    | error e' =>
      rw [hp, hp'] at hread
      have hsame := Except.error.inj hread
      refine .inl ⟨e, e', by rw [compile, hp]; rfl, by rw [compile, hp']; rfl, ?_, ?_, ?_⟩
      · rw [← folding.phase_fault, ← folding.phase_fault e'.value]
        exact congrArg (fun x => x.value.phase) hsame
      · rw [← folding.kind_fault, ← folding.kind_fault e'.value]
        exact congrArg (fun x => x.value.kind) hsame
      · have hposition := congrArg Located.position hsame
        exact hposition
  | ok p =>
    cases hp' : ofText text' name with
    | error e' =>
      rw [hp, hp'] at hread
      cases hread
    | ok p' =>
      rw [hp, hp'] at hread
      have hsame := Except.ok.inj hread
      refine .inr ⟨p.lower, p'.lower, by rw [compile, hp]; rfl, by rw [compile, hp']; rfl, ?_⟩
      -- both programs are lowered to what the program in lower case is
      rw [← lower_program p, hsame, lower_program]

theorem Program.compile_recased_string :
    ∃ text text', text = "program T; begin WriteLn('Ab', $fF) end." ∧
      text' = "PROGRAM t; BEGIN writeln('Ab', $Ff) END." ∧
      Token.Recased text.toList text'.toList ∧
      ((∃ e e', compile text "t" = .error e ∧ compile text' "t" = .error e' ∧
          e.value.phase = e'.value.phase ∧ e.value.kind = e'.value.kind ∧
          e.position = e'.position) ∨
        ∃ ir ir', compile text "t" = .ok ir ∧ compile text' "t" = .ok ir' ∧
          ir.emit.text = ir'.emit.text) := by
  have hin : Token.inStrings "program T; begin WriteLn('Ab', $fF) end.".toList =
      List.replicate 25 false ++ List.replicate 4 true ++ List.replicate 11 false := by cbv
  have hrecased : Token.Recased "program T; begin WriteLn('Ab', $fF) end.".toList
      "PROGRAM t; BEGIN writeln('Ab', $Ff) END.".toList := by
    refine ⟨by decide, ?_⟩
    rw [hin]
    have hall : ∀ x ∈ "program T; begin WriteLn('Ab', $fF) end.".toList.zip
        ("PROGRAM t; BEGIN writeln('Ab', $Ff) END.".toList.zip
          (List.replicate 25 false ++ List.replicate 4 true ++ List.replicate 11 false)),
        x.1 = x.2.1 ∨ x.1.toLower = x.2.1.toLower ∧ x.2.2 = false := by decide
    exact fun c d b hx => hall (c, d, b) hx
  exact ⟨_, _, rfl, rfl, hrecased, compile_recased hrecased⟩

end MiniPascal
