import MiniPascal.Proofs.Recoding.Placing
import MiniPascal.Proofs.Recoding.Program
import MiniPascal.Proofs.Token.Alone
import MiniPascal.Proofs.Token.Pieces

/-! An error has the position of a token, of a lexical error or of the end of the text. -/

namespace MiniPascal

namespace Token

/-- A result at another position. -/
def moved (p : Position) : Result → Result
  | .ok t => .ok { t with position := p }
  | .error e => .error ⟨p, e.value⟩

/-- The results with their numbers for positions. -/
def numberedResults (rs : List Result) : List Result := rs.mapIdx fun i r => moved ⟨i, 0⟩ r

/-- The place of the result with a number; the end of the text has all numbers behind the last. -/
def resultPlace (text : String) (rs : List Result) (number : Position) : Position :=
  (rs.map positionOf).getD number.line (endPosition text)

variable {text : String} {rs : List Result}

theorem moved_positionOf (r : Result) : moved (positionOf r) r = r := by
  cases r with
  | ok t => rfl
  | error e => rfl

theorem resultPlace_cases (text : String) (rs : List Result) (number : Position) :
    resultPlace text rs number = endPosition text ∨
      ∃ r ∈ rs, positionOf r = resultPlace text rs number := by
  unfold resultPlace
  rw [List.getD_eq_getElem?_getD, List.getElem?_map]
  cases h : rs[number.line]? with
  | none =>
    apply Or.inl
    rfl
  | some r =>
    apply Or.inr
    exact ⟨r, List.mem_of_getElem? h, rfl⟩

end Token

open Token

/-- The cursor in front of some numbered results. -/
def Cursor.numbered (rs : List Result) : Cursor :=
  ⟨.endOfFile ⟨rs.length, 0⟩, numberedResults rs, ⟨rs.length, 0⟩⟩

namespace Recoding

variable {text : String} {rs : List Result}

theorem token_placing (f : Position → Position) {t : Token} (ht : t.Alone) (p : Position) :
    (placing f).token { t with position := p } = { t with position := f p } := by
  have hliteral : (if t.kind = .string then .string t.value else t.literal) = t.literal := by
    split
    · rename_i hkind
      exact (ht.literal_string hkind).symm
    · rfl
  have hvalue : Token.value { t with position := p } = t.value := rfl
  simp only [token, hvalue, hliteral, text_placing, ite_self]
  rfl

theorem result_moved (f : Position → Position) {r : Result} (hr : ∀ t, r = .ok t → t.Alone)
    (p : Position) : (placing f).result (moved p r) = moved (f p) r := by
  cases r with
  | ok t =>
    have htoken := token_placing f (hr t rfl) p
    exact congrArg Except.ok htoken
  | error e =>
    have hvalue := lexError_placing f e.value
    have hlocated : (placing f).located (placing f).lexError ⟨p, e.value⟩ = ⟨f p, e.value⟩ := by
      rw [Recoding.located, hvalue]
      rfl
    exact congrArg Except.error hlocated

theorem numberedResults_placing (text : String) (hrs : ∀ t, .ok t ∈ rs → t.Alone) :
    (numberedResults rs).map (placing (resultPlace text rs)).result = rs := by
  apply List.ext_getElem
  · simp [numberedResults]
  · intro i hi hi'
    have hplace : resultPlace text rs ⟨i, 0⟩ = positionOf rs[i] := by
      simp [resultPlace, List.getD_eq_getElem?_getD, hi']
    have halone : ∀ t, rs[i] = .ok t → t.Alone := by
      intro t ht
      apply hrs t
      rw [← ht]
      exact List.getElem_mem hi'
    simp only [numberedResults, List.getElem_map, List.getElem_mapIdx]
    rw [result_moved _ halone, hplace, moved_positionOf]

theorem cursor_numbered (text : String) (hrs : ∀ t, .ok t ∈ rs → t.Alone) :
    (placing (resultPlace text rs)).cursor (.numbered rs) =
      ⟨.endOfFile (endPosition text), rs, endPosition text⟩ := by
  have hpending := numberedResults_placing text hrs
  have hstop : (placing (resultPlace text rs)).position ⟨rs.length, 0⟩ = endPosition text := by
    simp [placing, resultPlace]
  simp only [cursor, Cursor.numbered, token_endOfFile, hstop, hpending]

/-- Reading a text is reading its numbered results, with every number at its place. -/
theorem ofText_numbered (text name : String) :
    (placing (resultPlace text (scan text false))).Recodes
      (placing (resultPlace text (scan text false))).program
      (do
        let c ← (Cursor.numbered (scan text false)).advance
        Program.ofCursor name c)
      (Program.ofText text name) := by
  have halone : ∀ t, .ok t ∈ scan text false → t.Alone := by
    intro t ht
    exact alone_of_mem_scan text false ht
  have hcursor : Cursor.ofText text = ((placing (resultPlace text (scan text false))).cursor
      (.numbered (scan text false))).advance := by
    rw [cursor_numbered text halone]
    rfl
  unfold Program.ofText
  rw [hcursor]
  apply Recodes.bind (advance_cursor _ _)
  intro c
  have hprogram := (placing (resultPlace text (scan text false))).program_cursor name c
  rwa [text_placing] at hprogram

end Recoding

/-- A text that is no program fails at a token, at a lexical error or at its end. -/
theorem Program.ofText_error_position {text name : String} {e : Located Fault}
    (h : ofText text name = .error e) :
    e.position = endPosition text ∨ ∃ r ∈ scan text false, positionOf r = e.position := by
  have hread := Recoding.ofText_numbered text name
  unfold Recoding.Recodes at hread
  rw [hread] at h
  revert h
  generalize (do
    let c ← (Cursor.numbered (scan text false)).advance
    ofCursor name c) = numbered
  intro h
  cases numbered with
  | ok p => cases h
  | error e' =>
    cases h
    exact resultPlace_cases text (scan text false) e'.position

end MiniPascal
