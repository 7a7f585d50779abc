import MiniPascal.Proofs.Checked.Type
import MiniPascal.Proofs.Recoding.Syntax

namespace MiniPascal

namespace Recoding

variable (ρ : Recoding)

/-! ### Errors -/

def typeFault : TypeFault → TypeFault
  | .binary left op right => .binary (ρ.ty left) op (ρ.ty right)
  | .unary op t => .unary op (ρ.ty t)
  | .notArray t => .notArray (ρ.ty t)
  | .arrayIndex t => .arrayIndex (ρ.ty t)
  | .notRecord t => .notRecord (ρ.ty t)
  | .mismatch t context target => .mismatch (ρ.ty t) context (ρ.ty target)
  | .condition t => .condition (ρ.ty t)
  | .arrayBounds t => .arrayBounds (ρ.ty t)
  | .loopCounter t => .loopCounter (ρ.ty t)
  | .written t => .written (ρ.ty t)
  | .notType n => .notType (ρ.name n)
  | .notVariable n => .notVariable (ρ.name n)
  | .procedureAsValue n => .procedureAsValue (ρ.name n)

def semanticError : SemanticError → SemanticError
  | .unknownIdentifier n => .unknownIdentifier (ρ.name n)
  | .duplicateDeclaration n => .duplicateDeclaration (ρ.name n)
  | .unexpectedType fault => .unexpectedType (ρ.typeFault fault)
  | .capturedVariable n => .capturedVariable (ρ.name n)
  | .forwardMismatch n => .forwardMismatch (ρ.name n)
  | .forwardWithoutBody n => .forwardWithoutBody (ρ.name n)
  | .assignedConstant n => .assignedConstant (ρ.name n)
  | .argumentCount n expected found => .argumentCount (ρ.name n) expected found
  | .emptyRange low high => .emptyRange low high
  | .downwardLoop => .downwardLoop
  | .outsideLoop keyword => .outsideLoop keyword
  | .constantOverflow => .constantOverflow
  | .divisionByZero => .divisionByZero
  | .notConstant => .notConstant
  | .operatorNotConstant op => .operatorNotConstant op

/-- The result of a rule, recoded. -/
def checked {α β : Type} (f : α → β) : Checked α → Checked β
  | .ok a => .ok (f a)
  | .error e => .error (ρ.located ρ.semanticError e)

/-! ### Names -/

@[simp] theorem canonical_name (n : Name) : (ρ.name n).canonical = n.canonical := by
  have hlower : Char.toLower ∘ ρ.letter = Char.toLower := funext ρ.lower
  simp only [name, text, Name.canonical, String.toList_ofList, List.map_map, hlower]

@[simp] theorem beq_name (m n : Name) : (ρ.name m == ρ.name n) = (m == n) := by
  rw [Bool.eq_iff_iff, Name.beq_iff, Name.beq_iff, canonical_name, canonical_name]

/-! ### Types and expressions -/

@[simp] theorem position_expr (e : Expr) : (ρ.expr e).position = ρ.position e.position := by
  cases e <;> rfl

@[simp] theorem type_expr (e : Expr) : (ρ.expr e).type = ρ.ty e.type := by
  cases e <;> rfl

@[simp] theorem scalar?_ty (t : Ty) : (ρ.ty t).scalar? = t.scalar? := by
  cases t <;> rfl

@[simp] theorem isNumeric_ty (t : Ty) : (ρ.ty t).isNumeric = t.isNumeric := by
  cases t <;> rfl

@[simp] theorem isInteger_ty (t : Ty) : (ρ.ty t).isInteger = t.isInteger := by
  cases t <;> rfl

@[simp] theorem isRecord_ty (t : Ty) : (ρ.ty t).isRecord = t.isRecord := by
  cases t <;> rfl

@[simp] theorem ty_scalar (s : Scalar) : ρ.ty (.scalar s) = .scalar s := rfl

theorem asConstant_expr (e : Expr) : (ρ.expr e).asConstant = e.asConstant := by
  -- only integers with signs are constants here
  fun_induction Expr.asConstant e with
  | case1 p value => simp [expr, Expr.asConstant]
  | case2 p t e ih => simp [expr, Expr.asConstant, ih]
  | case3 p t e ih => simp [expr, Expr.asConstant, ih]
  | case4 e hint hminus hplus =>
    cases e with
    | int p value => exact absurd rfl (hint p value)
    | unary p t op e =>
      cases op with
      | minus => exact absurd rfl (hminus p t e)
      | plus => exact absurd rfl (hplus p t e)
      | not => simp [expr, Expr.asConstant]
    | _ => simp [expr, Expr.asConstant]

@[simp] theorem bounds_ty (t : Ty) : (ρ.ty t).bounds = t.bounds := by
  cases t <;> simp [ty, Ty.bounds, asConstant_expr]

theorem findField_fields (n : Name) (fs : List (Name × Ty)) :
    Ty.findField (ρ.name n) (ρ.fields fs) = (Ty.findField n fs).map (Prod.map id ρ.ty) := by
  induction fs with
  | nil => simp [fields, Ty.findField]
  | cons f fs ih =>
    obtain ⟨m, t⟩ := f
    simp only [fields, Ty.findField, beq_name, ih]
    split
    · rfl
    · simp [Option.map_map, Function.comp_def]

theorem field?_ty (t : Ty) (n : Name) :
    (ρ.ty t).field? (ρ.name n) = (t.field? n).map (Prod.map id ρ.ty) := by
  cases t with
  | record fs => simp [ty, Ty.field?, findField_fields]
  | _ => simp [ty, Ty.field?]

mutual

theorem sameShape_ty (t u : Ty) : (ρ.ty t).sameShape (ρ.ty u) = t.sameShape u := by
  cases t with
  | scalar s => cases u <;> simp [ty, Ty.sameShape]
  | array low high element =>
    cases u with
    | array low' high' element' =>
      have hbounds := ρ.bounds_ty (.array low high element)
      have hbounds' := ρ.bounds_ty (.array low' high' element')
      simp only [ty] at hbounds hbounds'
      simp only [ty, Ty.sameShape, hbounds, hbounds', sameShape_ty element element']
    | _ => simp [ty, Ty.sameShape]
  | record fs =>
    cases u with
    | record fs' => simp [ty, Ty.sameShape, sameFields_fields fs fs']
    | _ => simp [ty, Ty.sameShape]

theorem sameFields_fields (fs fs' : List (Name × Ty)) :
    Ty.sameFields (ρ.fields fs) (ρ.fields fs') = Ty.sameFields fs fs' := by
  match fs, fs' with
  | [], [] => simp [fields, Ty.sameFields]
  | [], _ :: _ => simp [fields, Ty.sameFields]
  | _ :: _, [] => simp [fields, Ty.sameFields]
  | (n, t) :: fs, (n', t') :: fs' =>
    simp [fields, Ty.sameFields, sameShape_ty t t', sameFields_fields fs fs']

end

/-! ### Operators, selectors and assignments -/

theorem result?_ty (op : BinOp) (left right : Ty) :
    op.result? (ρ.ty left) (ρ.ty right) = op.result? left right := by
  simp only [BinOp.result?, scalar?_ty, isNumeric_ty]

theorem accepts_ty (op : UnaryOp) (t : Ty) : op.accepts (ρ.ty t) = op.accepts t := by
  cases op <;> simp [UnaryOp.accepts]

theorem checkBinary_expr (op : BinOp) (left right : Expr) (p : Position) :
    Expr.checkBinary op (ρ.expr left) (ρ.expr right) (ρ.position p) =
      ρ.checked ρ.expr (Expr.checkBinary op left right p) := by
  simp only [Expr.checkBinary, Typing.binary, type_expr, result?_ty]
  cases op.result? left.type right.type with
  | none => rfl
  | some s => simp [bind, Except.bind, pure, Except.pure, checked, expr]

theorem checkUnary_expr (op : UnaryOp) (e : Expr) (p : Position) :
    Expr.checkUnary op (ρ.expr e) (ρ.position p) = ρ.checked ρ.expr (Expr.checkUnary op e p) := by
  simp only [Expr.checkUnary, Typing.unary, type_expr, accepts_ty]
  split
  · rfl
  · rfl

theorem checkIndex_expr (array idx : Expr) (p : Position) :
    Expr.checkIndex (ρ.expr array) (ρ.expr idx) (ρ.position p) =
      ρ.checked ρ.expr (Expr.checkIndex array idx p) := by
  simp only [Expr.checkIndex, Typing.element, type_expr, isInteger_ty]
  cases array.type with
  | scalar s => rfl
  | record fs => simp only [ty]; rfl
  | array low high element =>
    simp only [ty]
    split
    · rfl
    · rfl

theorem checkField_expr (record : Expr) (n : Name) (p : Position) :
    Expr.checkField (ρ.expr record) (ρ.name n) (ρ.position p) =
      ρ.checked ρ.expr (Expr.checkField record n p) := by
  simp only [Expr.checkField, Typing.field, type_expr, isRecord_ty, field?_ty]
  split
  · cases record.type.field? n with
    | none => rfl
    | some found => rfl
  · rfl

theorem assignable_ty (target value : Ty) :
    Typing.assignable (ρ.ty target) (ρ.ty value) = Typing.assignable target value := by
  simp only [Typing.assignable, scalar?_ty, sameShape_ty]

theorem checkAssignable_expr (target : Ty) (value : Expr) (context : String) :
    Typing.checkAssignable (ρ.ty target) (ρ.expr value) context =
      ρ.checked id (Typing.checkAssignable target value context) := by
  simp only [Typing.checkAssignable, type_expr, assignable_ty, position_expr]
  split
  · rfl
  · rfl

theorem checkCondition_expr (e : Expr) :
    Typing.checkCondition (ρ.expr e) = ρ.checked id (Typing.checkCondition e) := by
  simp only [Typing.checkCondition, type_expr, scalar?_ty, position_expr]
  split
  · rfl
  · rfl

/-! ### Constants -/

theorem constant_checked (n : Int) (p : Position) :
    Constant.checked n (ρ.position p) = ρ.checked id (Constant.checked n p) := by
  unfold Constant.checked
  split
  · rfl
  · rfl

theorem constant_binaryInt (op : BinOp) (a b : Int64) (p : Position) :
    Constant.binaryInt op a b (ρ.position p) = ρ.checked id (Constant.binaryInt op a b p) := by
  cases op with
  | add | sub | mul => exact ρ.constant_checked _ p
  | div =>
    simp only [Constant.binaryInt]
    split
    · rfl
    · exact ρ.constant_checked _ p
  | mod =>
    simp only [Constant.binaryInt, constant_checked]
    split
    · rfl
    · cases Constant.checked (a.toInt.tdiv b.toInt) p with
      | error e => rfl
      | ok quotient => rfl
  | divide =>
    simp only [Constant.binaryInt]
    split
    · rfl
    · rfl
  | and | or | equal | notEqual | less | lessEqual | greater | greaterEqual => rfl

theorem constant_binaryDouble (op : BinOp) (a b : Double) (p : Position) :
    Constant.binaryDouble op a b (ρ.position p) =
      ρ.checked id (Constant.binaryDouble op a b p) := by
  cases op with
  | divide =>
    simp only [Constant.binaryDouble]
    split
    · rfl
    · rfl
  | _ => rfl

theorem constant_binary (op : BinOp) (a b : Constant) (p : Position) :
    Constant.binary op a b (ρ.position p) = ρ.checked id (Constant.binary op a b p) := by
  unfold Constant.binary
  split
  · exact ρ.constant_binaryInt _ _ _ p
  · rfl
  · rfl
  · rfl
  · rfl
  · exact ρ.constant_binaryDouble _ _ _ p

theorem constant_unary (op : UnaryOp) (a : Constant) (p : Position) :
    Constant.unary op a (ρ.position p) = ρ.checked id (Constant.unary op a p) := by
  cases op <;> cases a <;> first | rfl | exact ρ.constant_checked _ p

/-- Two checked steps in a row. -/
theorem checked_bind {α β γ δ : Type} {f : α → β} {g : γ → δ} {r : Checked α} {k : α → Checked γ}
    {k' : β → Checked δ} (hk : ∀ a, k' (f a) = ρ.checked g (k a)) :
    (ρ.checked f r >>= k') = ρ.checked g (r >>= k) := by
  cases r with
  | error e => rfl
  | ok a => exact hk a

theorem fold_expr (e : Expr) : (ρ.expr e).fold = ρ.checked id e.fold := by
  fun_induction Expr.fold e with
  | case1 p value a h => simp only [expr, Expr.fold, h]; rfl
  | case2 p value h => simp only [expr, Expr.fold, h]; rfl
  | case3 p value => simp only [expr, Expr.fold]; rfl
  | case4 p value => simp only [expr, Expr.fold]; rfl
  | case5 p t op e ih =>
    simp only [expr, Expr.fold, ih]
    exact ρ.checked_bind fun a => ρ.constant_unary op a p
  | case6 p t op left right ihl ihr =>
    simp only [expr, Expr.fold, ihl, ihr]
    exact ρ.checked_bind fun a => ρ.checked_bind fun b => ρ.constant_binary op a b p
  | case7 e hint hdouble hbool hunary hbinary =>
    cases e with
    | int p value => exact absurd rfl (hint p value)
    | double p value => exact absurd rfl (hdouble p value)
    | bool p value => exact absurd rfl (hbool p value)
    | unary p t op e => exact absurd rfl (hunary p t op e)
    | binary p t op left right => exact absurd rfl (hbinary p t op left right)
    | _ => simp only [expr, Expr.fold]; rfl

theorem ofConstant_position (k : Constant) (p : Position) :
    Expr.ofConstant k (ρ.position p) = ρ.expr (Expr.ofConstant k p) := by
  cases k with
  | int value =>
    simp only [Expr.ofConstant]
    split
    · simp [expr]
    · simp [expr]
  | double value => simp [Expr.ofConstant, expr]
  | bool value => simp [Expr.ofConstant, expr]

end Recoding

end MiniPascal
