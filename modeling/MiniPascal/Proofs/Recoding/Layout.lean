import MiniPascal.Proofs.Recoding.Located

/-! A program is read from its tokens, wherever these stand: a text is compared with its numbered
tokens. -/

namespace MiniPascal

namespace Token

/-- What a token is, wherever it stands. -/
def content (t : Token) : Kind × String × String := (t.kind, t.text, t.value)

/-- The tokens with their numbers for positions. -/
def numbered (ts : List Token) : List Token :=
  ts.mapIdx fun i t => { t with position := ⟨i, 0⟩ }

/-- Where the tokens of a text stand, and behind them where the text ends. -/
def places (text : String) (ts : List Token) : List Position :=
  ts.map Token.position ++ [endPosition text]

/-- The place of the token with a number; the end of the text has all numbers behind the last. -/
def placeOf (text : String) (ts : List Token) (number : Position) : Position :=
  (ts.map Token.position).getD number.line (endPosition text)

variable {text : String} {ts ts' : List Token}

theorem placeOf_mem (number : Position) :
    (places text ts)[min number.line ts.length]? = some (placeOf text ts number) := by
  unfold places placeOf
  by_cases h : number.line < ts.length
  · have hmin : min number.line ts.length = number.line := by omega
    have hlt : number.line < (ts.map Token.position).length := by rwa [List.length_map]
    rw [hmin, List.getElem?_append_left hlt, List.getD_eq_getElem?_getD]
    rw [List.getElem?_eq_getElem hlt, Option.getD_some]
  · have hmin : min number.line ts.length = (ts.map Token.position).length := by
      rw [List.length_map]
      omega
    have hle : (ts.map Token.position).length ≤ number.line := by
      rw [List.length_map]
      omega
    rw [hmin, List.getElem?_concat_length, List.getD_eq_getElem?_getD]
    rw [List.getElem?_eq_none hle, Option.getD_none]

theorem numbered_eq (hts : ∀ t ∈ ts, t.Alone) (hts' : ∀ t ∈ ts', t.Alone)
    (h : ts.map content = ts'.map content) : numbered ts = numbered ts' := by
  have hlength : ts.length = ts'.length := by simpa using congrArg List.length h
  refine List.ext_getElem (by simpa [numbered] using hlength) fun i hi hi' => ?_
  have hlt : i < ts.length := by simpa [numbered] using hi
  have hlt' : i < ts'.length := hlength ▸ hlt
  have hcontent : (ts[i]).content = (ts'[i]).content := by
    have hget := List.getElem_of_eq h (by simpa using hlt)
    simpa using hget
  have htext : (ts[i]).text = (ts'[i]).text := congrArg (fun x => x.2.1) hcontent
  -- the literals are not compared, but the text of a token determines its literal
  obtain ⟨hkind, hliteral⟩ :=
    (hts _ (List.getElem_mem hlt)).eq_of_text (hts' _ (List.getElem_mem hlt')) htext
  simp only [numbered, List.getElem_mapIdx, htext, hkind, hliteral]

end Token

open Token

/-- The cursor in front of some tokens. -/
def Cursor.before (ts : List Token) (stop : Position) : Cursor :=
  ⟨.endOfFile stop, ts.map .ok, stop⟩

namespace Recoding

variable {text : String} {ts : List Token}

theorem resultPlace_map (text : String) (ts : List Token) :
    resultPlace text (ts.map .ok) = placeOf text ts := by
  funext number
  rw [resultPlace, List.map_map]
  rfl

/-- Tokens are numbered as results are. -/
theorem numbered_map (ts : List Token) :
    Cursor.numbered (ts.map .ok) = .before (numbered ts) ⟨ts.length, 0⟩ := by
  have hpending : numberedResults (ts.map .ok) = (numbered ts).map .ok := by
    apply List.ext_getElem
    · simp [numberedResults, numbered]
    · intro i hi hi'
      simp [numberedResults, numbered, moved]
  rw [Cursor.numbered, hpending, List.length_map, Cursor.before]

theorem ofText_placing (name : String) (hscan : scan text false = ts.map .ok) :
    (placing (placeOf text ts)).Recodes (placing (placeOf text ts)).program
      (do
        let c ← (Cursor.before (numbered ts) ⟨ts.length, 0⟩).advance
        Program.ofCursor name c)
      (Program.ofText text name) := by
  have hread := ofText_numbered text name
  rwa [hscan, resultPlace_map, numbered_map] at hread

end Recoding

/-- Texts with the same tokens are both programs or both not. The programs are equal but for their
positions; the errors are of one phase and kind and have one message, and they are found at tokens
with one number. -/
theorem Program.ofText_layout {text text' name : String} {ts ts' : List Token}
    (h : scanAll text false = .ok ts) (h' : scanAll text' false = .ok ts')
    (hcontent : ts.map content = ts'.map content) :
    (∃ p p', ofText text name = .ok p ∧ ofText text' name = .ok p' ∧ p.erased = p'.erased) ∨
      ∃ e e', ofText text name = .error e ∧ ofText text' name = .error e' ∧
        e.value.phase = e'.value.phase ∧ e.value.kind = e'.value.kind ∧
        e.value.message = e'.value.message ∧
        ∃ k : Nat, (places text ts)[k]? = some e.position ∧
          (places text' ts')[k]? = some e'.position := by
  have hts := alone_of_scanAll h
  have hts' := alone_of_scanAll h'
  have hlength : ts.length = ts'.length := by simpa using congrArg List.length hcontent
  have hread := Recoding.ofText_placing name (scan_of_scanAll h)
  have hread' := Recoding.ofText_placing name (scan_of_scanAll h')
  rw [← numbered_eq hts hts' hcontent, ← hlength] at hread'
  unfold Recoding.Recodes at hread hread'
  rw [hread, hread']
  -- what the numbered tokens give, moved to the places of either text
  generalize (do
    let c ← (Cursor.before (numbered ts) ⟨ts.length, 0⟩).advance
    ofCursor name c) = r
  cases r with
  | ok p =>
    refine .inl ⟨_, _, rfl, rfl, ?_⟩
    rw [erased_placing, erased_placing]
  | error e =>
    refine .inr ⟨_, _, rfl, rfl, ?_, ?_, ?_, min e.position.line ts.length, ?_, ?_⟩
    · simp only [Recoding.located, Recoding.phase_fault]
    · simp only [Recoding.located, Recoding.kind_fault]
    · simp only [Recoding.located, Recoding.message_placing]
    · exact placeOf_mem e.position
    · rw [hlength]
      exact placeOf_mem e.position

theorem Program.ofText_layout_spread :
    ∃ text text' ts ts', text = "program t; begin x end." ∧
      text' = "program t; // x\nbegin\n  x\nend." ∧
      scanAll text false = .ok ts ∧ scanAll text' false = .ok ts' ∧
      ts.map content = ts'.map content ∧
      ((∃ p p', ofText text "t" = .ok p ∧ ofText text' "t" = .ok p' ∧ p.erased = p'.erased) ∨
        ∃ e e', ofText text "t" = .error e ∧ ofText text' "t" = .error e' ∧
          e.value.phase = e'.value.phase ∧ e.value.kind = e'.value.kind ∧
          e.value.message = e'.value.message ∧
          ∃ k : Nat, (places text ts)[k]? = some e.position ∧
            (places text' ts')[k]? = some e'.position) := by
  have hscan : (scanAll "program t; begin x end." false).map (List.map content) =
      (scanAll "program t; // x\nbegin\n  x\nend." false).map (List.map content) := by cbv
  have hok : ∀ text : String, (scanAll text false).isOk = true →
      ∃ ts, scanAll text false = .ok ts := by
    intro text h
    cases hts : scanAll text false with
    | ok ts => exact ⟨ts, rfl⟩
    | error e =>
      rw [hts] at h
      cases h
  obtain ⟨ts, h⟩ := hok "program t; begin x end." (by cbv)
  obtain ⟨ts', h'⟩ := hok "program t; // x\nbegin\n  x\nend." (by cbv)
  rw [h, h'] at hscan
  have hcontent := Except.ok.inj hscan
  exact ⟨_, _, ts, ts', rfl, rfl, h, h', hcontent, ofText_layout h h' hcontent⟩

end MiniPascal
