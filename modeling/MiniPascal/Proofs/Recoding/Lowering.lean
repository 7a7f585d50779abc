import MiniPascal.Lowering.Program
import MiniPascal.Proofs.Recoding.Scope

/-! Lowering does not look at the case of letters. -/

namespace MiniPascal

open Lowering

namespace Recoding

@[simp] theorem position_folding (p : Position) : folding.position p = p := rfl

/-! ### Types and names -/

theorem globalName_folding (n : Name) : globalName (folding.name n) = globalName n := by
  simp only [globalName, canonical_name]

theorem slotName_folding (n : Name) : slotName (folding.name n) = slotName n := by
  simp only [slotName, canonical_name]

theorem argumentName_folding (n : Name) : argumentName (folding.name n) = argumentName n := by
  simp only [argumentName, canonical_name]

mutual

@[simp] theorem machineType_folding (t : Ty) : machineType (folding.ty t) = machineType t := by
  cases t with
  | scalar s => simp [ty]
  | array low high element =>
    have hbounds := folding.bounds_ty (.array low high element)
    simp only [ty] at hbounds ⊢
    simp only [machineType, Ty.length?, hbounds, machineType_folding element]
  | record fs => simp only [ty, machineType, machineTypes_folding fs]

theorem machineTypes_folding (fs : List (Name × Ty)) :
    machineTypes (folding.fields fs) = machineTypes fs := by
  match fs with
  | [] => simp [fields]
  | (n, t) :: fs => simp only [fields, machineTypes, machineType_folding t, machineTypes_folding fs]

end

@[simp] theorem isDouble_folding (t : Ty) : isDouble (folding.ty t) = isDouble t := by
  simp only [isDouble, scalar?_ty]

theorem operandType_folding (op : BinOp) (left right result : Ty) :
    operandType op (folding.ty left) (folding.ty right) (folding.ty result) =
      folding.ty (operandType op left right result) := by
  simp only [operandType, isNumeric_ty, isDouble_folding]
  split
  · split
    · exact (folding.ty_scalar _).symm
    · split
      · exact (folding.ty_scalar _).symm
      · exact (folding.ty_scalar _).symm
  · split
    · exact (folding.ty_scalar _).symm
    · rfl

/-! ### Expressions -/

theorem asValue_folding (e : Expr) (r : Lowered) :
    asValue (folding.expr e) r = (asValue e r : Step _) := by
  cases r with
  | value v => rfl
  | place slot => simp only [asValue, position_expr, type_expr, machineType_folding]; rfl

theorem asPlace_folding (e : Expr) (r : Lowered) :
    asPlace (folding.expr e) r = (asPlace e r : Step _) := by
  cases r with
  | value v => simp only [asPlace, position_expr, type_expr, machineType_folding]; rfl
  | place slot => rfl

theorem asTyped_folding (e : Expr) (target : Ty) (r : Lowered) :
    asTyped (folding.expr e) (folding.ty target) r = (asTyped e target r : Step _) := by
  have hvalue := asValue_folding e r
  have hposition := folding.position_expr e
  simp only [asTyped, isDouble_folding, type_expr, isInteger_ty, hvalue]
  cases e with
  | int p value => simp only [expr]
  | _ =>
    simp only [expr] at hvalue hposition ⊢
    rw [hvalue, hposition]
    rfl

theorem part_folding (p : Position) (aggregate : Ty) (base index : Ir.Operand) :
    part p (folding.ty aggregate) base index = (part p aggregate base index : Step _) := by
  simp only [part, machineType_folding]

theorem rebase_folding (p : Position) (array : Ty) (index : Ir.Operand) :
    rebase p (folding.ty array) index = (rebase p array index : Step _) := by
  simp only [rebase, bounds_ty]

theorem applyUnary_folding (p : Position) (op : UnaryOp) (operand : Ty) (v : Ir.Operand) :
    applyUnary p op (folding.ty operand) v = (applyUnary p op operand v : Step _) := by
  simp only [applyUnary, scalar?_ty]

theorem applyBinary_folding (p : Position) (op : BinOp) (t : Ty) (lhs rhs : Ir.Operand) :
    applyBinary p op (folding.ty t) lhs rhs = (applyBinary p op t lhs rhs : Step _) := by
  simp only [applyBinary, isDouble_folding, machineType_folding]

mutual

@[simp] theorem lower_folding (e : Expr) :
    Lowering.lower (folding.expr e) = (Lowering.lower e : Step _) := by
  cases e with
  | int p value => simp only [expr]; rfl
  | double p value => simp only [expr]; rfl
  | bool p value => simp only [expr]; rfl
  | var p t n storage =>
    cases storage with
    | global => simp only [expr, Lowering.lower, globalName_folding]
    | routine => simp only [expr, Lowering.lower, slotName_folding]
  | unary p t op e =>
    simp only [expr, Lowering.lower, lower_folding e, asValue_folding, type_expr,
      applyUnary_folding, position_folding]
  | binary p t op left right =>
    simp only [expr, Lowering.lower, lower_folding left, lower_folding right, type_expr,
      operandType_folding, asTyped_folding, applyBinary_folding, position_folding]
  | call p t n symbol args params =>
    simp only [expr, Lowering.lower, lowerArguments_folding args params, machineType_folding,
      position_folding]
  | index p t array i =>
    simp only [expr, Lowering.lower, lower_folding array, lower_folding i, asPlace_folding,
      asValue_folding, type_expr, rebase_folding, part_folding, position_folding]
  | field p t record n slot =>
    simp only [expr, Lowering.lower, lower_folding record, asPlace_folding, type_expr, part_folding,
      position_folding]

theorem lowerArguments_folding (args : List Expr) (params : List Ty) :
    lowerArguments (folding.exprs args) (folding.tys params) =
      (lowerArguments args params : Step _) := by
  match args, params with
  | [], [] => simp [exprs, tys]
  | [], t :: params => simp [exprs, tys, lowerArguments]
  | e :: args, [] => simp [exprs, tys, lowerArguments]
  | e :: args, t :: params =>
    simp only [exprs, tys, lowerArguments, lower_folding e, asTyped_folding, machineType_folding,
      lowerArguments_folding args params]

end

@[simp] theorem value_folding (e : Expr) :
    value (folding.expr e) = (value e : Step _) := by
  simp only [value, lower_folding, asValue_folding]

@[simp] theorem valueIn_folding (e : Expr) (target : Ty) :
    valueIn (folding.expr e) (folding.ty target) = (valueIn e target : Step _) := by
  simp only [valueIn, lower_folding, asTyped_folding]

@[simp] theorem place_folding (e : Expr) :
    place (folding.expr e) = (place e : Step _) := by
  simp only [place, lower_folding, asPlace_folding]

/-! ### Statements -/

theorem writtenArg_folding (arg : WriteArg) :
    writtenArg (folding.writeArg arg) = (writtenArg arg : Step _) := by
  cases arg with
  | text s => rfl
  | value e =>
    simp only [writeArg, writtenArg, type_expr, scalar?_ty, value_folding, position_expr,
      position_folding]

theorem writtenArgs_folding (args : List WriteArg) :
    writtenArgs (args.map folding.writeArg) = (writtenArgs args : Step _) := by
  induction args with
  | nil => rfl
  | cons arg args ih => simp only [List.map_cons, writtenArgs, writtenArg_folding, ih]

theorem valueIn_folding_integer (e : Expr) :
    valueIn (folding.expr e) .integer = (valueIn e .integer : Step _) := by
  have h := valueIn_folding e .integer
  rwa [ty_scalar] at h

mutual

theorem statement_folding (s : Stmt) :
    statement (folding.stmt s) = (statement s : Step _) := by
  cases s with
  | block body => simp only [stmt, statement, statements_folding body]
  | ifElse condition yes no =>
    cases no with
    | none => simp only [stmt, statement, value_folding, statement_folding yes]
    | some no =>
      simp only [stmt, statement, value_folding, statement_folding yes, statement_folding no]
  | forTo p target first bound body =>
    simp only [stmt, statement, loopStart, loopTest, place_folding, valueIn_folding_integer,
      statement_folding body, position_folding]
  | «while» condition body =>
    simp only [stmt, statement, value_folding, statement_folding body]
  | repeatUntil body condition =>
    simp only [stmt, statement, value_folding, statement_folding body]
  | assign target e =>
    simp only [stmt, statement, Lowering.assign, type_expr, valueIn_folding, place_folding,
      machineType_folding]
  | call n symbol args params returns =>
    have hreturns : (returns.map folding.ty).map machineType = returns.map machineType := by
      cases returns <;> simp
    simp only [stmt, statement, lowerArguments_folding, hreturns]
  | write newline args => simp only [stmt, statement, Lowering.write, writtenArgs_folding]
  | transition kind p => simp only [stmt, statement]

theorem statements_folding (ss : List Stmt) :
    statements (folding.stmts ss) = (statements ss : Step _) := by
  match ss with
  | [] => simp [stmts]
  | s :: ss => simp only [stmts, statements, statement_folding s, statements_folding ss]

end

/-! ### Routines and programs -/

theorem parameterSlots_folding (params : List (Name × Ty)) :
    parameterSlots (params.map (Prod.map folding.name folding.ty)) =
      (parameterSlots params : Step _) := by
  induction params with
  | nil => rfl
  | cons param params ih =>
    simp only [List.map_cons, Prod.map_fst, Prod.map_snd, parameterSlots, slotName_folding,
      argumentName_folding, machineType_folding, ih]

theorem variableSlots_folding (vars : List (Name × Ty)) :
    variableSlots (vars.map (Prod.map folding.name folding.ty)) =
      (variableSlots vars : Step _) := by
  induction vars with
  | nil => rfl
  | cons var vars ih =>
    simp only [List.map_cons, Prod.map_fst, Prod.map_snd, variableSlots, slotName_folding,
      machineType_folding, ih]

theorem returnFrom_folding (symbol : String) (returns : Option Ty) :
    returnFrom symbol (returns.map folding.ty) = (returnFrom symbol returns : Step _) := by
  cases returns with
  | none => rfl
  | some t => simp only [Option.map_some, returnFrom, machineType_folding]

theorem routineFunction_folding (symbol : String) (params : Scope) (returns : Option Ty)
    (vars : List (Name × Ty)) (body : List Stmt) :
    routineFunction symbol (folding.scope params) (returns.map folding.ty)
        (vars.map (Prod.map folding.name folding.ty)) (folding.stmts body) =
      (routineFunction symbol params returns vars body : Step _) := by
  simp only [routineFunction, vars_scope, parameterSlots_folding, variableSlots_folding,
    statements_folding, returnFrom_folding]

mutual

theorem routine_folding (r : Routine) :
    Lowering.routine (folding.routine r) = (Lowering.routine r : Step _) := by
  obtain ⟨p, symbol, params, returns, body, forward⟩ := r
  cases body with
  | none =>
    have h := routineFunction_folding symbol params returns [] []
    simp only [stmts] at h
    simp only [routine, Lowering.routine]
    exact h
  | some body =>
    obtain ⟨⟨es⟩, ss⟩ := body
    have hvars := folding.vars_scope ⟨es⟩
    simp only [scope] at hvars
    simp only [routine, block, scope, Lowering.routine, hvars, routineFunction_folding,
      routines_folding es]

theorem routines_folding (es : List (Name × Declaration)) :
    routines (folding.entries es) = (routines es : Step _) := by
  match es with
  | [] => simp [entries]
  | (n, d) :: es => simp only [entries, routines, declared_folding d, routines_folding es]

theorem declared_folding (d : Declaration) :
    declared (folding.declaration d) = (declared d : Step _) := by
  cases d with
  | routine r => simp only [declaration, declared, routine_folding r]
  | _ => simp only [declaration, declared]

end

/-- A program with its letters in lower case has the intermediate representation of the program. -/
theorem lower_program (p : Program) : (folding.program p).lower = p.lower := by
  have hglobals : globalVariables (folding.scope p.scope).vars = globalVariables p.scope.vars := by
    simp [globalVariables, vars_scope, globalName_folding]
  have hentries : (folding.scope p.scope).entries = folding.entries p.scope.entries := by
    rw [entries_scope, entries_eq_map]
  have hprogram : Lowering.program (folding.program p) = (Lowering.program p : Step _) := by
    simp only [Lowering.program, program, hglobals, hentries, routines_folding, mainFunction,
      statements_folding]
  rw [Program.lower, hprogram, Program.lower]

end Recoding

end MiniPascal
