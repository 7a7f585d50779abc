import MiniPascal.Proofs.Recoding.Cursor

/-! Programs at other positions. -/

namespace MiniPascal

namespace Recoding

/-! ### Composition -/

/-- One recoding after another. -/
def comp (σ ρ : Recoding) : Recoding where
  position := σ.position ∘ ρ.position
  letter := σ.letter ∘ ρ.letter
  lower ch := (σ.lower (ρ.letter ch)).trans (ρ.lower ch)
  fixed ch h := (congrArg σ.letter (ρ.fixed ch h)).trans (σ.fixed ch h)

variable (σ ρ : Recoding)

@[simp] theorem text_comp (s : String) : σ.text (ρ.text s) = (σ.comp ρ).text s := by
  simp [text, comp]

@[simp] theorem name_comp (n : Name) : σ.name (ρ.name n) = (σ.comp ρ).name n := by
  simp [name]

@[simp] theorem position_comp (p : Position) :
    σ.position (ρ.position p) = (σ.comp ρ).position p := rfl

mutual

@[simp] theorem ty_comp (t : Ty) : σ.ty (ρ.ty t) = (σ.comp ρ).ty t := by
  cases t with
  | scalar s => simp [ty]
  | array low high element => simp [ty, expr_comp low, expr_comp high, ty_comp element]
  | record fs => simp [ty, fields_comp fs]

theorem fields_comp (fs : List (Name × Ty)) :
    σ.fields (ρ.fields fs) = (σ.comp ρ).fields fs := by
  match fs with
  | [] => simp [fields]
  | (n, t) :: fs => simp [fields, ty_comp t, fields_comp fs]

@[simp] theorem expr_comp (e : Expr) : σ.expr (ρ.expr e) = (σ.comp ρ).expr e := by
  cases e with
  | int p value => simp [expr]
  | double p value => simp [expr]
  | bool p value => simp [expr]
  | var p t n storage => simp [expr, ty_comp t]
  | unary p t op e => simp [expr, ty_comp t, expr_comp e]
  | binary p t op left right => simp [expr, ty_comp t, expr_comp left, expr_comp right]
  | call p t n symbol args params => simp [expr, ty_comp t, exprs_comp args, tys_comp params]
  | index p t array i => simp [expr, ty_comp t, expr_comp array, expr_comp i]
  | field p t record n slot => simp [expr, ty_comp t, expr_comp record]

theorem exprs_comp (es : List Expr) : σ.exprs (ρ.exprs es) = (σ.comp ρ).exprs es := by
  match es with
  | [] => simp [exprs]
  | e :: es => simp [exprs, expr_comp e, exprs_comp es]

theorem tys_comp (ts : List Ty) : σ.tys (ρ.tys ts) = (σ.comp ρ).tys ts := by
  match ts with
  | [] => simp [tys]
  | t :: ts => simp [tys, ty_comp t, tys_comp ts]

end

theorem ty_comp_ty : σ.ty ∘ ρ.ty = (σ.comp ρ).ty := funext (σ.ty_comp ρ)

@[simp] theorem writeArg_comp (arg : WriteArg) :
    σ.writeArg (ρ.writeArg arg) = (σ.comp ρ).writeArg arg := by
  cases arg <;> simp [writeArg]

mutual

@[simp] theorem stmt_comp (s : Stmt) : σ.stmt (ρ.stmt s) = (σ.comp ρ).stmt s := by
  cases s with
  | block body => simp only [stmt, stmts_comp body]
  | ifElse condition yes no =>
    cases no with
    | none => simp only [stmt, expr_comp, stmt_comp yes]
    | some no => simp only [stmt, expr_comp, stmt_comp yes, stmt_comp no]
  | forTo p target value bound body => simp only [stmt, position_comp, expr_comp, stmt_comp body]
  | «while» condition body => simp only [stmt, expr_comp, stmt_comp body]
  | repeatUntil body condition => simp only [stmt, expr_comp, stmt_comp body]
  | assign target value => simp only [stmt, expr_comp]
  | call n symbol args params returns =>
    simp only [stmt, name_comp, exprs_comp, tys_comp, Option.map_map, ty_comp_ty]
  | write newline args =>
    simp only [stmt, List.map_map, Function.comp_def, writeArg_comp]
  | transition kind p => simp only [stmt, position_comp]

theorem stmts_comp (ss : List Stmt) : σ.stmts (ρ.stmts ss) = (σ.comp ρ).stmts ss := by
  match ss with
  | [] => simp [stmts]
  | s :: ss => simp [stmts, stmt_comp s, stmts_comp ss]

end

mutual

@[simp] theorem declaration_comp (d : Declaration) :
    σ.declaration (ρ.declaration d) = (σ.comp ρ).declaration d := by
  cases d with
  | var p t => simp [declaration]
  | const p value => simp [declaration]
  | type p t => simp [declaration]
  | routine r => simp [declaration, routine_comp r]

theorem routine_comp (r : Routine) : σ.routine (ρ.routine r) = (σ.comp ρ).routine r := by
  obtain ⟨p, symbol, params, returns, body, forward⟩ := r
  cases body with
  | none => simp only [routine, position_comp, scope_comp params, Option.map_map, ty_comp_ty]
  | some body =>
    simp only [routine, position_comp, scope_comp params, Option.map_map, ty_comp_ty,
      block_comp body]

theorem block_comp (b : Block) : σ.block (ρ.block b) = (σ.comp ρ).block b := by
  obtain ⟨s, ss⟩ := b
  simp only [block, scope_comp s, stmts_comp]

theorem scope_comp (s : Scope) : σ.scope (ρ.scope s) = (σ.comp ρ).scope s := by
  obtain ⟨es⟩ := s
  simp only [scope, entries_comp es]

theorem entries_comp (es : List (Name × Declaration)) :
    σ.entries (ρ.entries es) = (σ.comp ρ).entries es := by
  match es with
  | [] => simp [entries]
  | (n, d) :: es => simp [entries, declaration_comp d, entries_comp es]

end

theorem program_comp (p : Program) : σ.program (ρ.program p) = (σ.comp ρ).program p := by
  simp only [program, text_comp, scope_comp, stmts_comp]

/-! ### Placings -/

/-- Other positions and the same letters. -/
def placing (f : Position → Position) : Recoding := ⟨f, id, fun _ => rfl, fun _ _ => rfl⟩

variable (f : Position → Position)

@[simp] theorem text_placing (s : String) : (placing f).text s = s := by
  simp [text, placing]

@[simp] theorem name_placing (n : Name) : (placing f).name n = n := by simp [name]

@[simp] theorem lexError_placing (e : LexError) : (placing f).lexError e = e := by
  cases e <;> simp [lexError]
  rfl

mutual

theorem describe_placing (t : Ty) : ((placing f).ty t).describe = t.describe := by
  cases t with
  | scalar s => simp [ty]
  | array low high element =>
    have hbounds := (placing f).bounds_ty (.array low high element)
    simp only [ty] at hbounds ⊢
    simp only [Ty.describe, hbounds, describe_placing element]
  | record fs => simp only [ty, Ty.describe, describeFields_placing fs]

theorem describeFields_placing (fs : List (Name × Ty)) :
    Ty.describeFields ((placing f).fields fs) = Ty.describeFields fs := by
  match fs with
  | [] => simp [fields]
  | (n, t) :: fs =>
    simp only [fields, Ty.describeFields, name_placing, describe_placing t,
      describeFields_placing fs]

end

theorem describe_typeFault (e : TypeFault) :
    ((placing f).typeFault e).describe = e.describe := by
  cases e <;> simp only [typeFault, TypeFault.describe, describe_placing, name_placing]

/-- Messages do not show positions. -/
theorem message_placing (e : Fault) : ((placing f).fault e).message = e.message := by
  cases e with
  | unexpected found => simp only [fault, text_placing]
  | expected kind found => simp only [fault, text_placing]
  | lexical e => simp only [fault, lexError_placing]
  | semantic e =>
    cases e <;> simp only [fault, semanticError, Fault.message, SemanticError.message,
      name_placing, describe_typeFault]

end Recoding

/-- A program without its positions. -/
def Program.erased (p : Program) : Program := (Recoding.placing fun _ => .start).program p

/-- Wherever a program is placed, the rest of it stays. -/
theorem Program.erased_placing (f : Position → Position) (p : Program) :
    ((Recoding.placing f).program p).erased = p.erased := by
  rw [erased, erased, Recoding.program_comp]
  -- the second placing forgets the first
  rfl

end MiniPascal
