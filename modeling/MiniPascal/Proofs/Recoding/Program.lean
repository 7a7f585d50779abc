import MiniPascal.Grammar.Program
import MiniPascal.Proofs.Recoding.Statement

namespace MiniPascal

open Grammar

namespace Recoding

variable (ρ : Recoding)

/-! ### Sections -/

theorem addVariables_scope (scope : Scope) (t : Ty) (names : List (Located Name)) :
    ρ.Recodes ρ.scope (addVariables scope t names)
      (addVariables (ρ.scope scope) (ρ.ty t) (names.map (ρ.located ρ.name))) := by
  induction names generalizing scope with
  | nil => exact .ok rfl
  | cons n names ih =>
    have hinsert := ρ.insert_scope scope n.value (.var n.position t)
    simp only [declaration] at hinsert
    exact .bind (.checked hinsert) fun scope => ih scope

theorem variableGroup_cursor (s : Scopes) (scope : Scope) (c : Cursor) :
    ρ.Recodes (ρ.taken ρ.scope) (variableGroup s scope c)
      (variableGroup (ρ.scopes s) (ρ.scope scope) (ρ.cursor c)) := by
  unfold variableGroup
  refine .bind (ρ.identifiers_cursor c) ?_
  rintro ⟨names, c₁, h₁⟩
  refine .bind (ρ.symbol_cursor c₁ _) ?_
  rintro ⟨_, c₂, h₂⟩
  refine .bind (ρ.typeName_cursor s c₂) ?_
  rintro ⟨t, c₃, h₃⟩
  exact .bind (ρ.addVariables_scope scope t names) fun scope => .pure rfl

theorem variableDeclaration_cursor (s : Scopes) (c : Cursor) :
    ρ.Recodes (ρ.taken ρ.scope) (variableDeclaration s c)
      (variableDeclaration (ρ.scopes s) (ρ.cursor c)) := by
  unfold variableDeclaration
  refine .bind (ρ.identifiers_cursor c) ?_
  rintro ⟨names, c₁, h₁⟩
  refine .bind (ρ.symbol_cursor c₁ _) ?_
  rintro ⟨_, c₂, h₂⟩
  refine .bind (ρ.typeName_cursor s c₂) ?_
  rintro ⟨t, c₃, h₃⟩
  refine .bind (ρ.symbol_cursor c₃ _) ?_
  rintro ⟨_, c₄, h₄⟩
  have hadd := ρ.addVariables_scope .empty t names
  rw [scope_empty] at hadd
  exact .bind hadd fun scope => .pure rfl

theorem constantOf_expr (e : Expr) : ρ.Recodes ρ.expr (constantOf e) (constantOf (ρ.expr e)) := by
  unfold constantOf
  rw [position_expr]
  refine .bind (.checked (ρ.fold_expr e)) fun k => ?_
  cases k with
  | int n =>
    dsimp only [id]
    split
    · exact .pure (ρ.ofConstant_position _ _)
    · exact ρ.constantTooLarge_recodes _ _
  | double x => exact .pure (ρ.ofConstant_position _ _)
  | bool b => exact .pure (ρ.ofConstant_position _ _)

theorem constantDeclaration_cursor (s : Scopes) (c : Cursor) :
    ρ.Recodes (ρ.taken ρ.scope) (constantDeclaration s c)
      (constantDeclaration (ρ.scopes s) (ρ.cursor c)) := by
  unfold constantDeclaration
  refine .bind (ρ.identifier_cursor c) ?_
  rintro ⟨n, c₁, h₁⟩
  refine .bind (ρ.symbol_cursor c₁ _) ?_
  rintro ⟨_, c₂, h₂⟩
  refine .bind (ρ.expression_cursor s c₂) ?_
  rintro ⟨e, c₃, h₃⟩
  refine .bind (ρ.constantOf_expr e) fun value => ?_
  refine .bind (ρ.symbol_cursor c₃ _) ?_
  rintro ⟨_, c₄, h₄⟩
  exact .pure rfl

theorem typeDeclaration_cursor (s : Scopes) (c : Cursor) :
    ρ.Recodes (ρ.taken ρ.scope) (typeDeclaration s c)
      (typeDeclaration (ρ.scopes s) (ρ.cursor c)) := by
  unfold typeDeclaration
  refine .bind (ρ.identifier_cursor c) ?_
  rintro ⟨n, c₁, h₁⟩
  refine .bind (ρ.symbol_cursor c₁ _) ?_
  rintro ⟨_, c₂, h₂⟩
  refine .bind (ρ.typeName_cursor s c₂) ?_
  rintro ⟨t, c₃, h₃⟩
  refine .bind (ρ.symbol_cursor c₃ _) ?_
  rintro ⟨_, c₄, h₄⟩
  exact .pure rfl

theorem declareAll_recodes (s : Scopes) (scope : Scope) :
    ρ.Recodes ρ.scopes (declareAll s scope) (declareAll (ρ.scopes s) (ρ.scope scope)) := by
  unfold declareAll
  simp only [Scopes.merge, entries_scope, declareAll_scopes]
  obtain ⟨s', _ | e⟩ := s.declareAll scope.entries
  · exact .ok rfl
  · exact .error rfl

theorem sectionDeclarations_cursor (sec : Section) (s : Scopes) (c : Cursor) :
    ρ.Recodes (ρ.taken ρ.scopes) (sectionDeclarations sec s c)
      (sectionDeclarations sec (ρ.scopes s) (ρ.cursor c)) := by
  rw [sectionDeclarations, sectionDeclarations.eq_def sec (ρ.scopes s)]
  have hsection : ρ.Recodes (ρ.taken ρ.scope) (sectionDeclaration sec s c)
      (sectionDeclaration sec (ρ.scopes s) (ρ.cursor c)) := by
    cases sec with
    | vars => exact ρ.variableDeclaration_cursor s c
    | consts => exact ρ.constantDeclaration_cursor s c
    | types => exact ρ.typeDeclaration_cursor s c
  refine .bind hsection ?_
  rintro ⟨scope, c₁, h₁⟩
  refine .bind (ρ.declareAll_recodes s scope) fun s₁ => ?_
  dsimp only [taken]
  rw [kind_cursor]
  split
  · refine .bind (sectionDeclarations_cursor sec s₁ c₁) ?_
    rintro ⟨s₂, c₂, h₂⟩
    exact .pure rfl
  · exact .pure rfl
termination_by c.size

/-! ### Routines -/

theorem parameterGroups_cursor (s : Scopes) (params : Scope) (c : Cursor) :
    ρ.Recodes (ρ.taken ρ.scope) (parameterGroups s params c)
      (parameterGroups (ρ.scopes s) (ρ.scope params) (ρ.cursor c)) := by
  rw [parameterGroups, parameterGroups.eq_def (ρ.scopes s)]
  refine .bind (ρ.variableGroup_cursor s params c) ?_
  rintro ⟨params₁, c₁, h₁⟩
  refine .bind (ρ.acceptSymbol_cursor c₁ _) ?_
  rintro (_ | ⟨_, c₂, h₂⟩)
  · exact .pure rfl
  · refine .bind (parameterGroups_cursor s params₁ c₂) ?_
    rintro ⟨params₂, c₃, h₃⟩
    exact .pure rfl
termination_by c.size

theorem parameters_cursor (s : Scopes) (c : Cursor) :
    ρ.Recodes (ρ.passed ρ.scope) (parameters s c) (parameters (ρ.scopes s) (ρ.cursor c)) := by
  unfold parameters
  refine .bind (ρ.acceptSymbol_cursor c _) ?_
  rintro (_ | ⟨_, c₁, h₁⟩)
  · exact .pure_passed ρ.scope_empty.symm rfl
  · dsimp only [Option.map_some, taken]
    rw [sees_cursor]
    split
    · refine .bind (ρ.symbol_cursor c₁ _) ?_
      rintro ⟨_, c₂, h₂⟩
      exact .pure_passed ρ.scope_empty.symm rfl
    · refine .bind (ρ.scope_empty ▸ ρ.parameterGroups_cursor s .empty c₁) ?_
      rintro ⟨params, c₂, h₂⟩
      refine .bind (ρ.symbol_cursor c₂ _) ?_
      rintro ⟨_, c₃, h₃⟩
      exact .pure rfl

theorem resultType_cursor (s : Scopes) (isFunction : Bool) (c : Cursor) :
    ρ.Recodes (ρ.passed (Option.map ρ.ty)) (resultType s isFunction c)
      (resultType (ρ.scopes s) isFunction (ρ.cursor c)) := by
  unfold resultType
  split
  · refine .bind (ρ.symbol_cursor c _) ?_
    rintro ⟨_, c₁, h₁⟩
    refine .bind (ρ.typeName_cursor s c₁) ?_
    rintro ⟨t, c₂, h₂⟩
    exact .pure rfl
  · exact .pure rfl

theorem heading_cursor (path : List String) (s : Scopes) (isFunction : Bool) (c : Cursor) :
    ρ.Recodes (ρ.taken (Prod.map ρ.name ρ.routine)) (heading path s isFunction c)
      (heading path (ρ.scopes s) isFunction (ρ.cursor c)) := by
  unfold heading
  refine .bind (ρ.identifier_cursor c) ?_
  rintro ⟨n, c₁, h₁⟩
  refine .bind (ρ.parameters_cursor s c₁) ?_
  rintro ⟨params, c₂, h₂⟩
  refine .bind (ρ.resultType_cursor s isFunction c₂) ?_
  rintro ⟨returns, c₃, h₃⟩
  refine .bind (ρ.symbol_cursor c₃ _) ?_
  rintro ⟨_, c₄, h₄⟩
  refine .pure_taken ?_ rfl
  simp only [located, canonical_name]
  rfl

theorem register_scopes (s : Scopes) (n : Name) (r : Routine) (forward : Bool) :
    ρ.Recodes ρ.scopes (register s n r forward)
      (register (ρ.scopes s) (ρ.name n) (ρ.routine r) forward) := by
  have hinsert := ρ.insertTop_scopes s n (.routine r)
  simp only [declaration] at hinsert
  unfold register
  rw [top_scopes, get?_scope]
  cases s.top.get? n with
  | none => exact .checked hinsert
  | some d =>
    cases d with
    | routine q =>
      simp only [Option.map_some, declaration, forward_routine, sameSignature_routine,
        position_routine]
      split
      · split
        · exact .ok rfl
        · exact ρ.reject_recodes rfl
      · exact ρ.reject_recodes rfl
    | var p t => exact position_routine ρ r ▸ ρ.reject_recodes rfl
    | const p e => exact position_routine ρ r ▸ ρ.reject_recodes rfl
    | type p t => exact position_routine ρ r ▸ ρ.reject_recodes rfl

theorem enterBody_scopes (s : Scopes) (n : Name) (r : Routine) :
    ρ.Recodes ρ.scopes (enterBody s n r) (enterBody (ρ.scopes s) (ρ.name n) (ρ.routine r)) := by
  simp only [enterBody, params_routine, returns_routine, enter_scopes, position_routine]
  cases r.returns with
  | none => exact .ok rfl
  | some t =>
    have hdeclare := ρ.declare_scopes (s.enter r.params) n (.var r.position t)
    simp only [declaration] at hdeclare
    exact .checked hdeclare

theorem complete_declaration (body : Block) (d : Declaration) :
    Declaration.complete (ρ.block body) (ρ.declaration d) =
      ρ.declaration (Declaration.complete body d) := by
  cases d with
  | routine r => simp only [declaration, Declaration.complete, Routine.complete, routine_eq]; rfl
  | _ => simp only [declaration, Declaration.complete]

theorem leaveBody_scopes (s : Scopes) (n : Name) (ss : List Stmt) :
    leaveBody (ρ.scopes s) (ρ.name n) (ss.map ρ.stmt) = ρ.scopes (leaveBody s n ss) := by
  have hmodify := ρ.modify_scope s.leave.2.top n
    (ρ.complete_declaration ⟨s.leave.1, ss⟩)
  simp only [block, stmts_eq_map] at hmodify
  simp only [leaveBody, leave_scopes, Prod.map_fst, Prod.map_snd, top_scopes, hmodify,
    withTop_scopes]

theorem checkForwards_scopes (s : Scopes) :
    ρ.Recodes id (checkForwards s) (checkForwards (ρ.scopes s)) := by
  simp only [checkForwards, top_scopes, routines_scope, List.find?_map, Function.comp_def,
    Prod.map_snd, forward_routine]
  cases s.top.routines.find? fun x => x.2.forward with
  | none => exact .ok rfl
  | some found =>
    obtain ⟨n, r⟩ := found
    simp only [Option.map_some, Prod.map_apply, position_routine]
    exact ρ.reject_recodes rfl

mutual

theorem declarations_cursor (path : List String) (s : Scopes) (c : Cursor) :
    ρ.Recodes (ρ.passed ρ.scopes) (declarations path s c)
      (declarations path (ρ.scopes s) (ρ.cursor c)) := by
  rw [declarations.eq_def path s, declarations.eq_def path (ρ.scopes s)]
  refine .bind (ρ.accept_cursor c _) ?_
  rintro (_ | ⟨⟨sec, t⟩, c₁, h₁⟩)
  · refine .bind (ρ.accept_cursor c _) ?_
    rintro (_ | ⟨⟨isFunction, t⟩, c₁, h₁⟩)
    · exact .bind (ρ.checkForwards_scopes s) fun _ => .pure rfl
    · refine .bind (routine_cursor path s isFunction c₁) ?_
      rintro ⟨s₁, c₂, h₂⟩
      refine .bind (declarations_cursor path s₁ c₂) ?_
      rintro ⟨s₂, c₃, h₃⟩
      exact .pure rfl
  · refine .bind (ρ.sectionDeclarations_cursor sec s c₁) ?_
    rintro ⟨s₁, c₂, h₂⟩
    refine .bind (declarations_cursor path s₁ c₂) ?_
    rintro ⟨s₂, c₃, h₃⟩
    exact .pure rfl
termination_by c.size

theorem routine_cursor (path : List String) (s : Scopes) (isFunction : Bool) (c : Cursor) :
    ρ.Recodes (ρ.taken ρ.scopes) (Grammar.routine path s isFunction c)
      (Grammar.routine path (ρ.scopes s) isFunction (ρ.cursor c)) := by
  rw [Grammar.routine.eq_def path s, Grammar.routine.eq_def path (ρ.scopes s)]
  refine .bind (ρ.heading_cursor path s isFunction c) ?_
  rintro ⟨⟨n, r⟩, c₁, h₁⟩
  dsimp only [taken, Prod.map]
  rw [seesKeyword_cursor]
  refine .bind (ρ.register_scopes s n r _) fun s₁ => ?_
  split
  · refine .bind (ρ.keyword_cursor c₁ _) ?_
    rintro ⟨_, c₂, h₂⟩
    refine .bind (ρ.symbol_cursor c₂ _) ?_
    rintro ⟨_, c₃, h₃⟩
    exact .pure rfl
  · refine .bind (ρ.enterBody_scopes s₁ n r) fun inner => ?_
    rw [canonical_name]
    refine .bind (declarations_cursor (path ++ [n.canonical]) inner c₁) ?_
    rintro ⟨inner₁, c₂, h₂⟩
    refine .bind (ρ.compound_cursor inner₁ false c₂) ?_
    rintro ⟨ss, c₃, h₃⟩
    refine .bind (ρ.symbol_cursor c₃ _) ?_
    rintro ⟨_, c₄, h₄⟩
    exact .pure_taken (ρ.leaveBody_scopes inner₁ n ss) rfl
termination_by c.size

end

/-! ### Programs -/

theorem header_cursor (name : String) (c : Cursor) :
    ρ.Recodes (ρ.passed ρ.text) (header name c) (header (ρ.text name) (ρ.cursor c)) := by
  unfold header
  refine .bind (ρ.acceptKeyword_cursor c _) ?_
  rintro (_ | ⟨_, c₁, h₁⟩)
  · exact .pure rfl
  · refine .bind (ρ.identifier_cursor c₁) ?_
    rintro ⟨n, c₂, h₂⟩
    refine .bind (ρ.symbol_cursor c₂ _) ?_
    rintro ⟨_, c₃, h₃⟩
    exact .pure rfl

theorem program_cursor (name : String) (c : Cursor) :
    ρ.Recodes ρ.program (Program.ofCursor name c)
      (Program.ofCursor (ρ.text name) (ρ.cursor c)) := by
  unfold Program.ofCursor
  refine .bind (ρ.header_cursor name c) ?_
  rintro ⟨name₁, c₁, h₁⟩
  have hdeclarations := ρ.declarations_cursor [] .empty c₁
  rw [scopes_empty] at hdeclarations
  refine .bind hdeclarations ?_
  rintro ⟨s, c₂, h₂⟩
  refine .bind (ρ.compound_cursor s false c₂) ?_
  rintro ⟨ss, c₃, h₃⟩
  refine .bind (ρ.symbol_cursor c₃ _) ?_
  rintro ⟨_, c₄, h₄⟩
  refine .bind (ρ.finish_cursor c₄) fun _ => ?_
  refine .pure ?_
  simp only [program, stmts_eq_map]
  rfl

end Recoding

end MiniPascal
