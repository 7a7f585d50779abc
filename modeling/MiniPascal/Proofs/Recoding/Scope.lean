import MiniPascal.Proofs.Recoding.Typing

namespace MiniPascal

namespace Recoding

variable (ρ : Recoding)

/-! ### One scope -/

@[simp] theorem entries_scope (s : Scope) :
    (ρ.scope s).entries = s.entries.map (Prod.map ρ.name ρ.declaration) := by
  obtain ⟨es⟩ := s
  simp only [scope, entries_eq_map]

theorem scope_mk (es : List (Name × Declaration)) :
    ρ.scope ⟨es⟩ = ⟨es.map (Prod.map ρ.name ρ.declaration)⟩ := by
  simp only [scope, entries_eq_map]

@[simp] theorem scope_empty : ρ.scope .empty = .empty := by simp [Scope.empty, scope_mk]

@[simp] theorem position_routine (r : Routine) :
    (ρ.routine r).position = ρ.position r.position := by
  rw [routine_eq]

@[simp] theorem symbol_routine (r : Routine) : (ρ.routine r).symbol = r.symbol := by
  rw [routine_eq]

@[simp] theorem params_routine (r : Routine) : (ρ.routine r).params = ρ.scope r.params := by
  rw [routine_eq]

@[simp] theorem returns_routine (r : Routine) :
    (ρ.routine r).returns = r.returns.map ρ.ty := by
  rw [routine_eq]

@[simp] theorem forward_routine (r : Routine) : (ρ.routine r).forward = r.forward := by
  rw [routine_eq]

@[simp] theorem position_declaration (d : Declaration) :
    (ρ.declaration d).position = ρ.position d.position := by
  cases d <;> simp [declaration, Declaration.position]

@[simp] theorem contains_scope (s : Scope) (n : Name) :
    (ρ.scope s).contains (ρ.name n) = s.contains n := by
  simp [Scope.contains, List.any_map, Function.comp_def]

@[simp] theorem get?_scope (s : Scope) (n : Name) :
    (ρ.scope s).get? (ρ.name n) = (s.get? n).map ρ.declaration := by
  simp only [Scope.get?, entries_scope, List.find?_map, Function.comp_def, Prod.map_fst, beq_name,
    Option.map_map]
  rfl

theorem insert_scope (s : Scope) (n : Name) (d : Declaration) :
    (ρ.scope s).insert (ρ.name n) (ρ.declaration d) = ρ.checked ρ.scope (s.insert n d) := by
  simp only [Scope.insert, contains_scope, position_declaration]
  split
  · rfl
  · simp [checked, scope_mk]

theorem modify_scope (s : Scope) (n : Name) {f f' : Declaration → Declaration}
    (hf : ∀ d, f' (ρ.declaration d) = ρ.declaration (f d)) :
    (ρ.scope s).modify (ρ.name n) f' = ρ.scope (s.modify n f) := by
  simp only [Scope.modify, entries_scope, scope_mk, List.map_map]
  refine congrArg Scope.mk (List.map_congr_left ?_)
  rintro ⟨m, d⟩ -
  simp only [Function.comp_apply, Prod.map_fst, Prod.map_snd, beq_name, hf]
  cases m == n with
  | true => rfl
  | false => rfl

theorem vars_scope (s : Scope) : (ρ.scope s).vars = s.vars.map (Prod.map ρ.name ρ.ty) := by
  obtain ⟨es⟩ := s
  rw [scope_mk]
  induction es with
  | nil => rfl
  | cons e es ih =>
    obtain ⟨n, d⟩ := e
    simp only [Scope.vars] at ih ⊢
    cases d <;> simp [declaration, ih]

theorem routines_scope (s : Scope) :
    (ρ.scope s).routines = s.routines.map (Prod.map ρ.name ρ.routine) := by
  obtain ⟨es⟩ := s
  rw [scope_mk]
  induction es with
  | nil => rfl
  | cons e es ih =>
    obtain ⟨n, d⟩ := e
    simp only [Scope.routines] at ih ⊢
    cases d <;> simp [declaration, ih]

@[simp] theorem size_scope (s : Scope) : (ρ.scope s).size = s.size := by
  simp [Scope.size]

/-! ### Signatures -/

@[simp] theorem paramTypes_routine (r : Routine) :
    (ρ.routine r).paramTypes = r.paramTypes.map ρ.ty := by
  simp only [Routine.paramTypes, params_routine, vars_scope, List.map_map]
  rfl

theorem sameParam_entry (p q : Name × Declaration) :
    Routine.sameParam (Prod.map ρ.name ρ.declaration p) (Prod.map ρ.name ρ.declaration q) =
      Routine.sameParam p q := by
  obtain ⟨m, d⟩ := p
  obtain ⟨n, e⟩ := q
  cases d <;> cases e <;> simp [Routine.sameParam, declaration, sameShape_ty]

theorem sameResult_map (t u : Option Ty) :
    Routine.sameResult (t.map ρ.ty) (u.map ρ.ty) = Routine.sameResult t u := by
  cases t <;> cases u <;> simp [Routine.sameResult, sameShape_ty]

@[simp] theorem sameSignature_routine (r q : Routine) :
    (ρ.routine r).sameSignature (ρ.routine q) = r.sameSignature q := by
  simp only [Routine.sameSignature, returns_routine, params_routine, sameResult_map, size_scope,
    entries_scope, List.zip_map, List.all_map]
  simp only [Function.comp_def, Prod.map_fst, Prod.map_snd, sameParam_entry]

/-! ### The visible scopes -/

@[simp] theorem scopes_empty : ρ.scopes .empty = .empty := by simp [scopes, Scopes.empty]

@[simp] theorem top_scopes (s : Scopes) : (ρ.scopes s).top = ρ.scope s.top := by
  obtain ⟨g, _ | ⟨l, ls⟩⟩ := s <;> rfl

@[simp] theorem params_scopes (s : Scopes) : (ρ.scopes s).params = ρ.scope s.params := by
  obtain ⟨g, _ | ⟨l, ls⟩⟩ := s
  · exact ρ.scope_empty.symm
  · rfl

@[simp] theorem withTop_scopes (s : Scopes) (scope : Scope) :
    (ρ.scopes s).withTop (ρ.scope scope) = ρ.scopes (s.withTop scope) := by
  obtain ⟨g, _ | ⟨l, ls⟩⟩ := s <;> rfl

@[simp] theorem enter_scopes (s : Scopes) (params : Scope) :
    (ρ.scopes s).enter (ρ.scope params) = ρ.scopes (s.enter params) := by
  simp [Scopes.enter, scopes, level]

@[simp] theorem leave_scopes (s : Scopes) :
    (ρ.scopes s).leave = Prod.map ρ.scope ρ.scopes s.leave := by
  obtain ⟨g, _ | ⟨l, ls⟩⟩ := s
  · simp [Scopes.leave, scopes]
  · rfl

theorem insertTop_scopes (s : Scopes) (n : Name) (d : Declaration) :
    (ρ.scopes s).insertTop (ρ.name n) (ρ.declaration d) =
      ρ.checked ρ.scopes (s.insertTop n d) := by
  simp only [Scopes.insertTop, top_scopes, insert_scope]
  refine ρ.checked_bind fun scope => ?_
  rw [withTop_scopes]
  rfl

theorem declare_scopes (s : Scopes) (n : Name) (d : Declaration) :
    (ρ.scopes s).declare (ρ.name n) (ρ.declaration d) = ρ.checked ρ.scopes (s.declare n d) := by
  simp only [Scopes.declare, params_scopes, contains_scope, position_declaration]
  split
  · rfl
  · exact ρ.insertTop_scopes s n d

theorem declareAll_scopes (s : Scopes) (es : List (Name × Declaration)) :
    (ρ.scopes s).declareAll (es.map (Prod.map ρ.name ρ.declaration)) =
      Prod.map ρ.scopes (Option.map (ρ.located ρ.semanticError)) (s.declareAll es) := by
  induction es generalizing s with
  | nil => rfl
  | cons e es ih =>
    obtain ⟨n, d⟩ := e
    simp only [List.map_cons, Prod.map_apply, Scopes.declareAll, declare_scopes]
    cases s.declare n d with
    | error e => rfl
    | ok s' => exact ih s'

/-! ### Resolution -/

/-- A resolved name, recoded. -/
def resolved (r : Resolved) : Resolved := ⟨ρ.declaration r.declaration, r.storage⟩

@[simp] theorem isVariable_declaration (d : Declaration) :
    Scopes.isVariable (ρ.declaration d) = Scopes.isVariable d := by
  cases d <;> simp [declaration, Scopes.isVariable]

theorem get?_level (l : Level) (n : Name) :
    (ρ.level l).get? (ρ.name n) = (l.get? n).map ρ.declaration := by
  simp only [Level.get?, level, get?_scope]
  cases l.locals.get? n <;> rfl

theorem getRoutine?_level (l : Level) (n : Name) :
    (ρ.level l).getRoutine? (ρ.name n) = (l.getRoutine? n).map ρ.routine := by
  simp only [Level.getRoutine?, level, get?_scope]
  rcases l.locals.get? n with _ | (_ | _ | _ | r) <;>
    rcases l.params.get? n with _ | (_ | _ | _ | q) <;> simp [declaration]

theorem find?_scopes (s : Scopes) (n : Name) :
    (ρ.scopes s).find? (ρ.name n) = (s.find? n).map (Prod.map ρ.declaration id) := by
  -- the depth of a level is the number of levels that are left, which a recoding keeps
  have hgo : ∀ ls : List Level, Scopes.find?.go (ρ.scopes s) (ρ.name n) (ls.map ρ.level) =
      (Scopes.find?.go s n ls).map (Prod.map ρ.declaration id) := by
    intro ls
    induction ls with
    | nil =>
      simp only [List.map_nil, Scopes.find?.go, scopes, get?_scope, Option.map_map]
      rfl
    | cons l ls ih =>
      simp only [List.map_cons, Scopes.find?.go, get?_level, List.length_map]
      cases l.get? n with
      | none => exact ih
      | some d => rfl
  exact hgo s.levels

theorem lookup_scopes (s : Scopes) (n : Located Name) :
    (ρ.scopes s).lookup (ρ.located ρ.name n) = ρ.checked ρ.resolved (s.lookup n) := by
  simp only [Scopes.lookup, located, find?_scopes]
  cases s.find? n.value with
  | none => rfl
  | some found =>
    obtain ⟨d, depth⟩ := found
    have hdepth : (ρ.scopes s).depth = s.depth := by simp [Scopes.depth, scopes]
    simp only [Option.map_some, Prod.map_apply, isVariable_declaration, id, hdepth]
    split
    · rfl
    · rfl

theorem lookupRoutine_scopes (s : Scopes) (n : Located Name) :
    (ρ.scopes s).lookupRoutine (ρ.located ρ.name n) =
      ρ.checked ρ.routine (s.lookupRoutine n) := by
  have hlevels : ∀ ls : List Level,
      (ls.map ρ.level).findSome? (·.getRoutine? (ρ.name n.value)) =
        (ls.findSome? (·.getRoutine? n.value)).map ρ.routine := by
    intro ls
    induction ls with
    | nil => rfl
    | cons l ls ih =>
      simp only [List.map_cons, List.findSome?_cons, getRoutine?_level, ih]
      cases l.getRoutine? n.value <;> rfl
  simp only [Scopes.lookupRoutine, located, scopes, hlevels, get?_scope]
  cases s.levels.findSome? (·.getRoutine? n.value) with
  | some r => rfl
  | none =>
    rcases s.globals.get? n.value with _ | (_ | _ | _ | r)
    all_goals rfl

end Recoding

end MiniPascal
