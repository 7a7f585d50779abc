import MiniPascal.Proofs.Reading.Expression

namespace MiniPascal.Grammar

open Cursor

theorem boundOf_ensures (e : Expr) :
    Read.Ensures (boundOf e) fun b =>
      ∃ n p, fitsWord n = true ∧ b = .ofConstant (.int n) p := by
  unfold boundOf
  refine .bind (Read.ensures_checked _) fun k _ => ?_
  rcases k with n | _ | _
  · dsimp only
    split
    · rename_i hn
      exact .pure ⟨n, e.position, hn, rfl⟩
    · exact .error
  · exact .error
  · exact .error

theorem checkRange_ensures {l h : Int64} (hl : fitsWord l = true) (hh : fitsWord h = true)
    (p q : Position) :
    Read.Ensures (checkRange (.ofConstant (.int l) p) (.ofConstant (.int h) q)) fun _ =>
      l.toInt ≤ h.toInt := by
  unfold checkRange
  simp only [Expr.asConstant_ofConstant hl, Expr.asConstant_ofConstant hh]
  split
  · exact .error
  · rename_i hle
    rw [Int64.lt_iff_toInt_lt] at hle
    exact .ok (by omega)

theorem nestArrays_wellFormed {rs : List (Expr × Expr)} {element : Ty} (he : element.WellFormed)
    (hr : ∀ r ∈ rs, (Ty.array r.1 r.2 .integer).WellFormed) :
    (nestArrays rs element).WellFormed := by
  induction rs with
  | nil => exact he
  | cons r rs ih =>
    obtain ⟨hr, hrs⟩ := List.forall_mem_cons.1 hr
    rw [Ty.WellFormed] at hr
    have := ih hrs
    rw [nestArrays, List.foldr_cons, Ty.WellFormed]
    exact ⟨hr.1, this⟩

theorem addFields_ensures {fields : List (Name × Ty)} {t : Ty} (ht : t.WellFormed)
    (hf : Ty.AllWellFormed fields) (names : List (Located Name)) :
    Read.Ensures (addFields fields t names) Ty.AllWellFormed := by
  induction names generalizing fields with
  | nil => exact .ok hf
  | cons n names ih =>
    unfold addFields
    split
    · exact .error
    · exact ih ((Ty.allWellFormed_append _ _).2 ⟨hf, ht, trivial⟩)

section

set_option linter.unusedSectionVars false

variable {s : Scopes} (hs : s.Sound)
include hs

theorem range_ensures {c : Cursor} (hc : c.Spelled) :
    Read.Ensures (range s c) fun t =>
      (Ty.array t.value.1 t.value.2 .integer).WellFormed ∧ t.rest.Spelled := by
  unfold range
  refine .bind (expression_checked hs hc) ?_
  rintro ⟨low, c₁, h₁⟩ ⟨_, hc₁⟩
  refine .bind (boundOf_ensures _) ?_
  rintro _ ⟨l, p, hl, rfl⟩
  refine .bind (symbol_spelled hc₁ _) ?_
  rintro ⟨_, c₂, h₂⟩ hc₂
  refine .bind (expression_checked hs hc₂) ?_
  rintro ⟨high, c₃, h₃⟩ ⟨_, hc₃⟩
  refine .bind (boundOf_ensures _) ?_
  rintro _ ⟨h, q, hh, rfl⟩
  refine .bind (checkRange_ensures hl hh p q) fun _ hle => .pure ⟨?_, hc₃⟩
  rw [Ty.WellFormed]
  exact ⟨⟨l, h, p, q, rfl, rfl, hl, hh, hle⟩, trivial⟩

theorem ranges_ensures {c : Cursor} (hc : c.Spelled) :
    Read.Ensures (ranges s c) fun t =>
      (∀ r ∈ t.value, (Ty.array r.1 r.2 .integer).WellFormed) ∧ t.rest.Spelled := by
  unfold ranges
  refine .bind (range_ensures hs hc) ?_
  rintro ⟨r, c₁, h₁⟩ ⟨hr, hc₁⟩
  refine .bind (acceptSymbol_spelled hc₁ _) fun o ho => ?_
  rcases o with _ | ⟨_, c₂, h₂⟩
  · exact .pure ⟨List.forall_mem_singleton.2 hr, hc₁⟩
  · refine .bind (ranges_ensures (ho _ rfl)) ?_
    rintro ⟨rs, c₃, h₃⟩ ⟨hrs, hc₃⟩
    exact .pure ⟨List.forall_mem_cons.2 ⟨hr, hrs⟩, hc₃⟩
termination_by c.size

theorem declaredType_ensures (name : Located Name) :
    Read.Ensures (declaredType s name) Ty.WellFormed := by
  unfold declaredType
  refine .bind (Read.ensures_checked _) ?_
  rintro ⟨d, st⟩ hd
  have hsound := hs.lookup hd
  rcases d with _ | _ | ⟨p, t⟩ | _
  · exact .error
  · exact .error
  · exact .pure hsound
  · exact .error

mutual

/-- What is read as a type is well formed. -/
theorem typeName_wellFormed {c : Cursor} (hc : c.Spelled) :
    Read.Ensures (typeName s c) fun t => t.value.WellFormed ∧ t.rest.Spelled := by
  unfold typeName
  refine .bind (accept_spelled hc _) fun o ho => ?_
  rcases o with _ | ⟨⟨sc, _⟩, c₁, h₁⟩
  swap
  · -- the name of a scalar type
    exact .pure ⟨trivial, (ho _ rfl).2.2⟩
  refine .bind (acceptKeyword_spelled hc _) fun o ho => ?_
  rcases o with _ | ⟨_, c₁, h₁⟩
  swap
  · -- an array
    refine .bind (symbol_spelled (ho _ rfl) _) ?_
    rintro ⟨_, c₂, h₂⟩ hc₂
    refine .bind (ranges_ensures hs hc₂) ?_
    rintro ⟨rs, c₃, h₃⟩ ⟨hr, hc₃⟩
    refine .bind (symbol_spelled hc₃ _) ?_
    rintro ⟨_, c₄, h₄⟩ hc₄
    refine .bind (keyword_spelled hc₄ _) ?_
    rintro ⟨_, c₅, h₅⟩ hc₅
    refine .bind (typeName_wellFormed hc₅) ?_
    rintro ⟨element, c₆, h₆⟩ ⟨he, hc₆⟩
    exact .pure ⟨nestArrays_wellFormed he hr, hc₆⟩
  refine .bind (acceptKeyword_spelled hc _) fun o ho => ?_
  rcases o with _ | ⟨_, c₁, h₁⟩
  swap
  · -- a record
    refine .bind (fieldList_wellFormed (show Ty.AllWellFormed [] from trivial) (ho _ rfl)) ?_
    rintro ⟨fields, c₂, h₂⟩ ⟨hf, hc₂⟩
    refine .bind (keyword_spelled hc₂ _) ?_
    rintro ⟨_, c₃, h₃⟩ hc₃
    exact .pure ⟨hf, hc₃⟩
  dsimp only
  split
  · refine .bind (identifier_spelled hc) ?_
    rintro ⟨name, c₁, h₁⟩ ⟨_, hc₁⟩
    exact .bind (declaredType_ensures hs name) fun t ht => .pure ⟨ht, hc₁⟩
  · exact unexpected_ensures
termination_by c.size

theorem fieldList_wellFormed {fields : List (Name × Ty)} (hf : Ty.AllWellFormed fields)
    {c : Cursor} (hc : c.Spelled) :
    Read.Ensures (fieldList s fields c) fun t =>
      Ty.AllWellFormed t.value ∧ t.rest.Spelled := by
  unfold fieldList
  split
  · refine .bind (identifiers_spelled hc) ?_
    rintro ⟨names, c₁, h₁⟩ ⟨_, hc₁⟩
    refine .bind (symbol_spelled hc₁ _) ?_
    rintro ⟨_, c₂, h₂⟩ hc₂
    refine .bind (typeName_wellFormed hc₂) ?_
    rintro ⟨t, c₃, h₃⟩ ⟨ht, hc₃⟩
    refine .bind (addFields_ensures ht hf names) fun fields hf => ?_
    refine .bind (acceptSymbol_spelled hc₃ _) fun o ho => ?_
    rcases o with _ | ⟨_, c₄, h₄⟩
    · exact .pure ⟨hf, hc₃⟩
    · refine .bind (fieldList_wellFormed hf (ho _ rfl)) ?_
      rintro ⟨fields, c₅, h₅⟩ hf
      exact .pure hf
  · exact .pure ⟨hf, hc⟩
termination_by c.size

end

end

end MiniPascal.Grammar
