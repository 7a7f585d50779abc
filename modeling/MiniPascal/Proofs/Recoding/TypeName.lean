import MiniPascal.Grammar.TypeName
import MiniPascal.Proofs.Recoding.Expression

namespace MiniPascal

open Grammar

namespace Recoding

variable (ρ : Recoding)

theorem constantTooLarge_recodes {α β : Type} {f : α → β} (p : Position) (n : Int64) :
    ρ.Recodes f (constantTooLarge p n) (constantTooLarge (ρ.position p) n) := by
  refine .error ?_
  simp only [located, fault, lexError, text_toString]

theorem boundOf_expr (e : Expr) : ρ.Recodes ρ.expr (boundOf e) (boundOf (ρ.expr e)) := by
  unfold boundOf
  rw [position_expr, type_expr]
  refine .bind (.checked (ρ.fold_expr e)) fun k => ?_
  cases k with
  | int n =>
    dsimp only [id]
    split
    · exact .pure (ρ.ofConstant_position _ _)
    · exact ρ.constantTooLarge_recodes _ _
  | double x => exact ρ.reject_recodes rfl
  | bool b => exact ρ.reject_recodes rfl

theorem checkRange_expr (low high : Expr) :
    ρ.Recodes id (checkRange low high) (checkRange (ρ.expr low) (ρ.expr high)) := by
  simp only [checkRange, asConstant_expr, position_expr]
  split
  · split
    · exact ρ.reject_recodes rfl
    · exact .ok rfl
  · exact .ok rfl

theorem range_cursor (s : Scopes) (c : Cursor) :
    ρ.Recodes (ρ.taken (Prod.map ρ.expr ρ.expr)) (range s c)
      (range (ρ.scopes s) (ρ.cursor c)) := by
  unfold range
  refine .bind (ρ.expression_cursor s c) ?_
  rintro ⟨low, c₁, h₁⟩
  refine .bind (ρ.boundOf_expr low) fun low => ?_
  refine .bind (ρ.symbol_cursor c₁ _) ?_
  rintro ⟨_, c₂, h₂⟩
  refine .bind (ρ.expression_cursor s c₂) ?_
  rintro ⟨high, c₃, h₃⟩
  refine .bind (ρ.boundOf_expr high) fun high => ?_
  exact .bind (ρ.checkRange_expr low high) fun _ => .pure rfl

theorem ranges_cursor (s : Scopes) (c : Cursor) :
    ρ.Recodes (ρ.taken (List.map (Prod.map ρ.expr ρ.expr))) (ranges s c)
      (ranges (ρ.scopes s) (ρ.cursor c)) := by
  rw [ranges, ranges.eq_def (ρ.scopes s)]
  refine .bind (ρ.range_cursor s c) ?_
  rintro ⟨r, c₁, h₁⟩
  refine .bind (ρ.acceptSymbol_cursor c₁ _) ?_
  rintro (_ | ⟨_, c₂, h₂⟩)
  · exact .pure rfl
  · refine .bind (ranges_cursor s c₂) ?_
    rintro ⟨rs, c₃, h₃⟩
    exact .pure rfl
termination_by c.size

theorem nestArrays_expr (rs : List (Expr × Expr)) (element : Ty) :
    nestArrays (rs.map (Prod.map ρ.expr ρ.expr)) (ρ.ty element) = ρ.ty (nestArrays rs element) := by
  induction rs with
  | nil => rfl
  | cons r rs ih =>
    simp only [nestArrays, List.map_cons, List.foldr_cons] at ih ⊢
    rw [ih]
    simp only [ty, Prod.map_fst, Prod.map_snd]

theorem addFields_fields (fs : List (Name × Ty)) (t : Ty) (names : List (Located Name)) :
    ρ.Recodes ρ.fields (addFields fs t names)
      (addFields (ρ.fields fs) (ρ.ty t) (names.map (ρ.located ρ.name))) := by
  induction names generalizing fs with
  | nil => exact .ok rfl
  | cons n names ih =>
    have hany : ((ρ.fields fs).any fun f => f.1 == ρ.name n.value) =
        fs.any fun f => f.1 == n.value := by
      simp [fields_eq_map, List.any_map, Function.comp_def]
    have hsnoc : ρ.fields (fs ++ [(n.value, t)]) =
        ρ.fields fs ++ [(ρ.name n.value, ρ.ty t)] := by
      simp [fields_eq_map]
    simp only [List.map_cons, addFields, located, hany]
    split
    · exact ρ.reject_recodes rfl
    · rw [← hsnoc]
      exact ih _

theorem declaredType_scopes (s : Scopes) (n : Located Name) :
    ρ.Recodes ρ.ty (declaredType s n) (declaredType (ρ.scopes s) (ρ.located ρ.name n)) := by
  unfold declaredType
  refine .bind (.checked (ρ.lookup_scopes s n)) ?_
  rintro ⟨d, storage⟩
  cases d with
  | type p t =>
    simp only [resolved, declaration]
    exact .pure rfl
  | var p t => exact ρ.reject_recodes rfl
  | const p e => exact ρ.reject_recodes rfl
  | routine r => exact ρ.reject_recodes rfl

variable (s : Scopes)

mutual

theorem typeName_cursor (c : Cursor) :
    ρ.Recodes (ρ.taken ρ.ty) (typeName s c) (typeName (ρ.scopes s) (ρ.cursor c)) := by
  rw [typeName.eq_def s, typeName.eq_def (ρ.scopes s)]
  refine .bind (ρ.accept_cursor c _) ?_
  rintro (_ | ⟨⟨k, t⟩, c₁, h₁⟩)
  · refine .bind (ρ.acceptKeyword_cursor c _) ?_
    rintro (_ | ⟨t, c₁, h₁⟩)
    · refine .bind (ρ.acceptKeyword_cursor c _) ?_
      rintro (_ | ⟨t, c₁, h₁⟩)
      · dsimp only [Option.map_none]
        rw [kind_cursor]
        split
        · refine .bind (ρ.identifier_cursor c) ?_
          rintro ⟨n, c₁, h₁⟩
          exact .bind (ρ.declaredType_scopes s n) fun t => .pure rfl
        · exact ρ.unexpected_cursor c
      · refine .bind (fieldList_cursor [] c₁) ?_
        rintro ⟨fs, c₂, h₂⟩
        refine .bind (ρ.keyword_cursor c₂ _) ?_
        rintro ⟨_, c₃, h₃⟩
        exact .pure rfl
    · refine .bind (ρ.symbol_cursor c₁ _) ?_
      rintro ⟨_, c₂, h₂⟩
      refine .bind (ρ.ranges_cursor s c₂) ?_
      rintro ⟨rs, c₃, h₃⟩
      refine .bind (ρ.symbol_cursor c₃ _) ?_
      rintro ⟨_, c₄, h₄⟩
      refine .bind (ρ.keyword_cursor c₄ _) ?_
      rintro ⟨_, c₅, h₅⟩
      refine .bind (typeName_cursor c₅) ?_
      rintro ⟨element, c₆, h₆⟩
      exact .pure_taken (ρ.nestArrays_expr rs element) rfl
  · exact .pure_taken (ρ.ty_scalar k).symm rfl
termination_by c.size

theorem fieldList_cursor (fs : List (Name × Ty)) (c : Cursor) :
    ρ.Recodes (ρ.passed ρ.fields) (fieldList s fs c)
      (fieldList (ρ.scopes s) (ρ.fields fs) (ρ.cursor c)) := by
  rw [fieldList.eq_def s, fieldList.eq_def (ρ.scopes s), kind_cursor]
  split
  · refine .bind (ρ.identifiers_cursor c) ?_
    rintro ⟨names, c₁, h₁⟩
    refine .bind (ρ.symbol_cursor c₁ _) ?_
    rintro ⟨_, c₂, h₂⟩
    refine .bind (typeName_cursor c₂) ?_
    rintro ⟨t, c₃, h₃⟩
    refine .bind (ρ.addFields_fields fs t names) fun fs => ?_
    refine .bind (ρ.acceptSymbol_cursor c₃ _) ?_
    rintro (_ | ⟨_, c₄, h₄⟩)
    · exact .pure rfl
    · refine .bind (fieldList_cursor fs c₄) ?_
      rintro ⟨fs, c₅, h₅⟩
      exact .pure rfl
  · exact .pure rfl
termination_by c.size

end

end Recoding

end MiniPascal
