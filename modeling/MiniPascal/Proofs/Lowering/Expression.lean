import MiniPascal.Lowering.Expression
import MiniPascal.Proofs.Checked.Syntax

namespace MiniPascal.Lowering

/-- How often each name has been asked for. -/
abbrev Names := List (String × Nat)

/-- The next name for a position and a suffix. -/
def fresh (p : Position) (suffix : String) (ν : Names) : String :=
  numbered (baseName p suffix) (countOf (baseName p suffix) ν)

/-- The names when that one has been used. -/
def spend (p : Position) (suffix : String) (ν : Names) : Names := countUp (baseName p suffix) ν

/-- The instruction that applies an operator to two values of one type. -/
def applied (output : String) (op : BinOp) (t : Ty) (lhs rhs : Ir.Operand) : Ir.Instr :=
  match operationOf op (isDouble t) with
  | .arithmetic opcode => .binary output opcode (machineType t) lhs rhs
  | .comparison predicate => .compare output predicate (machineType t) lhs rhs

theorem applied_arithmetic {op : BinOp} {t : Ty} {o : Ir.Opcode}
    (h : operationOf op (isDouble t) = .arithmetic o) (output : String) (lhs rhs : Ir.Operand) :
    applied output op t lhs rhs = .binary output o (machineType t) lhs rhs := by
  rw [applied, h]

theorem applied_comparison {op : BinOp} {t : Ty} {o : Ir.Predicate}
    (h : operationOf op (isDouble t) = .comparison o) (output : String) (lhs rhs : Ir.Operand) :
    applied output op t lhs rhs = .compare output o (machineType t) lhs rhs := by
  rw [applied, h]

/-- The lower bound of an array type. -/
def lowBound (t : Ty) : Int64 := (t.bounds.map Prod.fst).getD 0

mutual

/-- The code that finds the place of a designator. -/
inductive PlaceCode : Expr → Names → Ir.Operand → List Ir.Instr → Names → Prop
  | global {p t n ν} : PlaceCode (.var p t n .global) ν (.global (globalName n)) [] ν
  | routine {p t n ν} : PlaceCode (.var p t n .routine) ν (.local (slotName n)) [] ν
  | index {p t a i ν₁ ν₂ ν₃ base v c₁ c₂} (ha : PlaceCode a ν₁ base c₁ ν₂)
    (hi : ValueCode i ν₂ v c₂ ν₃) (hl : lowBound a.type = 0) :
    PlaceCode (.index p t a i) ν₁ (.local (fresh p ".ptr" ν₃))
      (c₁ ++ c₂ ++ [.element (fresh p ".ptr" ν₃) (machineType a.type) base [.int 0, v]])
      (spend p ".ptr" ν₃)
  | rebased {p t a i ν₁ ν₂ ν₃ base v c₁ c₂} (ha : PlaceCode a ν₁ base c₁ ν₂)
    (hi : ValueCode i ν₂ v c₂ ν₃) (hl : lowBound a.type ≠ 0) :
    PlaceCode (.index p t a i) ν₁ (.local (fresh p ".ptr" (spend p ".idx" ν₃)))
      (c₁ ++ c₂ ++ [.binary (fresh p ".idx" ν₃) .sub .i32 v (.int (lowBound a.type)),
        .element (fresh p ".ptr" (spend p ".idx" ν₃)) (machineType a.type) base
          [.int 0, .local (fresh p ".idx" ν₃)]])
      (spend p ".ptr" (spend p ".idx" ν₃))
  | field {p t r n slot ν₁ ν₂ base c} (hr : PlaceCode r ν₁ base c ν₂) :
    PlaceCode (.field p t r n slot) ν₁ (.local (fresh p ".ptr" ν₂))
      (c ++ [.element (fresh p ".ptr" ν₂) (machineType r.type) base
        [.int 0, .int (Int64.ofNat slot)]])
      (spend p ".ptr" ν₂)

/-- The code that finds the value of an expression. -/
inductive ValueCode : Expr → Names → Ir.Operand → List Ir.Instr → Names → Prop
  | int {p v ν} : ValueCode (.int p v) ν (.int v.toInt64) [] ν
  | double {p x ν} : ValueCode (.double p x) ν (.double x) [] ν
  | bool {p b ν} : ValueCode (.bool p b) ν (.bool b) [] ν
  | load {e ν₁ ν₂ slot c} (h : PlaceCode e ν₁ slot c ν₂) :
    ValueCode e ν₁ (.local (fresh e.position "" ν₂))
      (c ++ [.load (fresh e.position "" ν₂) (machineType e.type) slot]) (spend e.position "" ν₂)
  | plus {p t e ν₁ ν₂ v c} (h : ValueCode e ν₁ v c ν₂) : ValueCode (.unary p t .plus e) ν₁ v c ν₂
  | negate {p t e ν₁ ν₂ v c} (h : ValueCode e ν₁ v c ν₂) (ht : e.type = .double) :
    ValueCode (.unary p t .minus e) ν₁ (.local (fresh p "" ν₂))
      (c ++ [.negate (fresh p "" ν₂) v]) (spend p "" ν₂)
  | minus {p t e ν₁ ν₂ v c} (h : ValueCode e ν₁ v c ν₂) (ht : e.type = .integer) :
    ValueCode (.unary p t .minus e) ν₁ (.local (fresh p "" ν₂))
      (c ++ [.binary (fresh p "" ν₂) .sub .i32 (.int 0) v]) (spend p "" ν₂)
  | not {p t e ν₁ ν₂ v c} (h : ValueCode e ν₁ v c ν₂) (ht : e.type = .boolean) :
    ValueCode (.unary p t .not e) ν₁ (.local (fresh p "" ν₂))
      (c ++ [.binary (fresh p "" ν₂) .xor .i1 v (.bool true)]) (spend p "" ν₂)
  | complement {p t e ν₁ ν₂ v c} (h : ValueCode e ν₁ v c ν₂) (ht : e.type = .integer) :
    ValueCode (.unary p t .not e) ν₁ (.local (fresh p "" ν₂))
      (c ++ [.binary (fresh p "" ν₂) .xor .i32 v (.int (-1))]) (spend p "" ν₂)
  | binary {p t op l r ν₁ ν₂ ν₃ v w c₁ c₂}
    (hl : TypedCode l (operandType op l.type r.type t) ν₁ v c₁ ν₂)
    (hr : TypedCode r (operandType op l.type r.type t) ν₂ w c₂ ν₃) :
    ValueCode (.binary p t op l r) ν₁ (.local (fresh p "" ν₃))
      (c₁ ++ c₂ ++ [applied (fresh p "" ν₃) op (operandType op l.type r.type t) v w])
      (spend p "" ν₃)
  | call {p t n symbol args params ν₁ ν₂ vs c} (h : ArgsCode args params (spend p "" ν₁) vs c ν₂) :
    ValueCode (.call p t n symbol args params) ν₁ (.local (fresh p "" ν₁))
      (c ++ [.call (some (fresh p "" ν₁)) (machineType t) (functionName symbol) none vs]) ν₂

/-- The code that finds the value of an expression where one of the given type is needed. -/
inductive TypedCode : Expr → Ty → Names → Ir.Operand → List Ir.Instr → Names → Prop
  | widened {p v t ν} (ht : isDouble t = true) : TypedCode (.int p v) t ν (.widened v) [] ν
  | cast {e t ν₁ ν₂ v c} (ht : isDouble t = true) (he : e.type = .integer)
    (h : ValueCode e ν₁ v c ν₂) :
    TypedCode e t ν₁ (.local (fresh e.position ".cast" ν₂))
      (c ++ [.cast (fresh e.position ".cast" ν₂) .sitofp .i32 v .double])
      (spend e.position ".cast" ν₂)
  | same {e t ν₁ ν₂ v c} (ht : (isDouble t && e.type.isInteger) = false)
    (h : ValueCode e ν₁ v c ν₂) : TypedCode e t ν₁ v c ν₂

/-- The code that finds the values of arguments. -/
inductive ArgsCode :
    List Expr → List Ty → Names → List (Ir.Ty × Ir.Operand) → List Ir.Instr → Names → Prop
  | nil {ν} : ArgsCode [] [] ν [] [] ν
  | cons {e es t ts ν₁ ν₂ ν₃ v vs c₁ c₂} (he : TypedCode e t ν₁ v c₁ ν₂)
    (hes : ArgsCode es ts ν₂ vs c₂ ν₃) :
    ArgsCode (e :: es) (t :: ts) ν₁ ((machineType t, v) :: vs) (c₁ ++ c₂) ν₃

end

/-! ### Steps -/

/-- The state with more code and other names. -/
def Generator.emit (g : Generator) (c : List Ir.Instr) (ν : Names) : Generator :=
  { g with code := g.code ++ c, names := ν }

namespace Generator

variable (g : Generator)

@[simp] theorem names_emit (c : List Ir.Instr) (ν : Names) : (g.emit c ν).names = ν := rfl

@[simp] theorem emit_emit (c d : List Ir.Instr) (ν μ : Names) :
    (g.emit c ν).emit d μ = g.emit (c ++ d) μ := by
  simp only [emit, List.append_assoc]

theorem emit_nil : g.emit [] g.names = g := by
  simp only [emit, List.append_nil]

end Generator

theorem bind_run {κ α β : Type} {m : StepOf κ α} {f : α → StepOf κ β} {g g' : Generator κ} {a : α}
    (h : m g = (a, g')) : (m >>= f) g = f a g' := by
  show f (m g).1 (m g).2 = f a g'
  rw [h]

theorem newName_run (p : Position) (suffix : String) (g : Generator) :
    newName p suffix g = (fresh p suffix g.names, g.emit [] (spend p suffix g.names)) := by
  simp only [Generator.emit, List.append_nil]
  rfl

theorem push_run (i : Ir.Instr) (g : Generator) : push i g = ((), g.emit [i] g.names) := rfl

/-- A step gives a result and only appends code and uses up names. -/
def Emits {α : Type} (m : Step α) (g : Generator) (a : α) (c : List Ir.Instr) (ν : Names) : Prop :=
  m g = (a, g.emit c ν)

namespace Emits

variable {α β : Type} {m : Step α} {g : Generator}

theorem pure (a : α) : Emits (Pure.pure a) g a [] g.names := by
  show (a, g) = _
  rw [g.emit_nil]

theorem bind {f : α → Step β} {a : α} {b : β} {c d : List Ir.Instr} {ν μ : Names}
    (hm : Emits m g a c ν) (hf : Emits (f a) (g.emit c ν) b d μ) :
    Emits (m >>= f) g b (c ++ d) μ := by
  unfold Emits at *
  rw [bind_run hm, hf, Generator.emit_emit]

/-- A result that is put into another form. -/
theorem map {a : α} {c : List Ir.Instr} {ν : Names} (hm : Emits m g a c ν) (k : α → β) :
    Emits (m >>= fun x => Pure.pure (k x)) g (k a) c ν := by
  have := hm.bind (f := fun x => Pure.pure (k x)) (.pure (k a))
  rwa [List.append_nil] at this

theorem newName (p : Position) (suffix : String) :
    Emits (Lowering.newName p suffix) g (fresh p suffix g.names) [] (spend p suffix g.names) :=
  newName_run p suffix g

theorem push (i : Ir.Instr) : Emits (Lowering.push i) g () [i] g.names := push_run i g

end Emits

/-- A new name for the output of one more instruction, and the name as the result. -/
theorem emits_output (p : Position) (suffix : String) (i : String → Ir.Instr) (g : Generator) :
    Emits (do
      let output ← newName p suffix
      push (i output)
      return Ir.Operand.local output) g (.local (fresh p suffix g.names))
      [i (fresh p suffix g.names)] (spend p suffix g.names) :=
  .bind (.newName p suffix) (.bind (.push _) (.pure _))

/-! ### The lowering of expressions -/

section

variable {κ : Type} [Counter κ]

theorem lower_unary (p : Position) (t : Ty) (op : UnaryOp) (e : Expr) :
    (lower (.unary p t op e) : StepOf κ Lowered) = do
      let v ← value e
      return .value (← applyUnary p op e.type v) := rfl

theorem lower_binary (p : Position) (t : Ty) (op : BinOp) (l r : Expr) :
    (lower (.binary p t op l r) : StepOf κ Lowered) = do
      let lhs ← valueIn l (operandType op l.type r.type t)
      let rhs ← valueIn r (operandType op l.type r.type t)
      return .value (← applyBinary p op (operandType op l.type r.type t) lhs rhs) := rfl

theorem lower_index (p : Position) (t : Ty) (a i : Expr) :
    (lower (.index p t a i) : StepOf κ Lowered) = do
      let base ← place a
      let v ← value i
      let v ← rebase p a.type v
      return .place (← part p a.type base v) := rfl

theorem lower_field (p : Position) (t : Ty) (r : Expr) (n : Name) (slot : Nat) :
    (lower (.field p t r n slot) : StepOf κ Lowered) = do
      let base ← place r
      return .place (← part p r.type base (.int (Int64.ofNat slot))) := rfl

theorem lowerArguments_cons (e : Expr) (es : List Expr) (t : Ty) (ts : List Ty) :
    (lowerArguments (e :: es) (t :: ts) : StepOf κ (List (Ir.Ty × Ir.Operand))) = do
      let v ← valueIn e t
      return (machineType t, v) :: (← lowerArguments es ts) := rfl

theorem valueIn_same {e : Expr} {t : Ty} (h : (isDouble t && e.type.isInteger) = false) :
    (valueIn e t : StepOf κ Ir.Operand) = value e := by
  unfold valueIn asTyped value
  simp only [h, Bool.false_eq_true, if_false]

theorem valueIn_widened {p : Position} {n : UInt64} {t : Ty} (h : isDouble t = true) :
    (valueIn (.int p n) t : StepOf κ Ir.Operand) = Pure.pure (.widened n) := by
  simp only [valueIn, asTyped, lower, h, Expr.type, Ty.isInteger, Bool.and_self, if_true,
    pure_bind]

theorem valueIn_cast {e : Expr} {t : Ty} (h : (isDouble t && e.type.isInteger) = true)
    (hlit : ∀ p n, e ≠ .int p n) :
    (valueIn e t : StepOf κ Ir.Operand) = do
      let v ← value e
      let output ← newName e.position ".cast"
      push (.cast output .sitofp .i32 v .double)
      return .local output := by
  unfold valueIn asTyped value
  simp only [h, if_true, bind_assoc]

end

/-- An expression is lowered to a place if it is a designator, and else to a value, by code of the
right form. -/
structure Lowers (e : Expr) : Prop where
  place : e.isDesignator = true → ∀ g, ∃ slot c ν, PlaceCode e g.names slot c ν ∧
    Emits (lower e) g (.place slot) c ν
  value : e.isDesignator = false → ∀ g, ∃ v c ν, ValueCode e g.names v c ν ∧
    Emits (lower e) g (.value v) c ν

namespace Lowers

variable {e : Expr}

theorem ofPlace (hd : e.isDesignator = true)
    (h : ∀ g, ∃ slot c ν, PlaceCode e g.names slot c ν ∧ Emits (lower e) g (.place slot) c ν) :
    Lowers e :=
  ⟨fun _ => h, fun hv => absurd (hd.symm.trans hv) Bool.false_ne_true.symm⟩

theorem ofValue (hd : e.isDesignator = false)
    (h : ∀ g, ∃ v c ν, ValueCode e g.names v c ν ∧ Emits (lower e) g (.value v) c ν) :
    Lowers e :=
  ⟨fun hp => absurd (hd.symm.trans hp) Bool.false_ne_true, fun _ => h⟩

variable (h : Lowers e) (g : Generator)
include h

theorem emits_place (hd : e.isDesignator = true) :
    ∃ slot c ν, PlaceCode e g.names slot c ν ∧ Emits (Lowering.place e) g slot c ν := by
  obtain ⟨slot, c, ν, hc, he⟩ := h.place hd g
  refine ⟨slot, c, ν, hc, ?_⟩
  have := he.bind (f := asPlace e) (.pure slot)
  rwa [List.append_nil] at this

theorem emits_value :
    ∃ v c ν, ValueCode e g.names v c ν ∧ Emits (Lowering.value e) g v c ν := by
  cases hd : e.isDesignator with
  | true =>
    obtain ⟨slot, c, ν, hc, he⟩ := h.place hd g
    exact ⟨_, _, _, .load hc, he.bind (emits_output e.position "" _ _)⟩
  | false =>
    obtain ⟨v, c, ν, hc, he⟩ := h.value hd g
    refine ⟨v, c, ν, hc, ?_⟩
    have := he.bind (f := asValue e) (.pure v)
    rwa [List.append_nil] at this

theorem emits_typed (t : Ty) :
    ∃ v c ν, TypedCode e t g.names v c ν ∧ Emits (valueIn e t) g v c ν := by
  obtain ⟨v, c, ν, hc, he⟩ := h.emits_value g
  cases ht : isDouble t && e.type.isInteger with
  | false =>
    rw [valueIn_same ht]
    exact ⟨v, c, ν, .same ht hc, he⟩
  | true =>
    obtain ⟨hd, hi⟩ := (Bool.and_eq_true _ _).mp ht
    by_cases hlit : ∃ p n, e = .int p n
    · obtain ⟨p, n, rfl⟩ := hlit
      rw [valueIn_widened hd]
      exact ⟨_, _, _, .widened hd, .pure _⟩
    · rw [valueIn_cast ht fun p n he => hlit ⟨p, n, he⟩]
      exact ⟨_, _, _, .cast hd (Expr.integer_of_isInteger hi) hc,
        he.bind (emits_output e.position ".cast" _ _)⟩

end Lowers

theorem emits_applyUnary {e : Expr} {p : Position} {t : Ty} {op : UnaryOp}
    (ha : op.accepts e.type = true) {g : Generator} {v : Ir.Operand} {c : List Ir.Instr}
    {ν₁ ν : Names} (hc : ValueCode e ν₁ v c ν) (hg : g.names = ν) :
    ∃ w d μ, ValueCode (.unary p t op e) ν₁ w (c ++ d) μ ∧
      Emits (applyUnary p op e.type v) g w d μ := by
  subst hg
  cases op with
  | plus => exact ⟨v, [], _, by simpa using ValueCode.plus hc, .pure v⟩
  | minus =>
    rcases hty : e.type with (_ | _ | _) | _ | _ <;> rw [hty] at ha <;>
      simp only [UnaryOp.accepts, Ty.isNumeric, Bool.false_eq_true] at ha
    · exact ⟨_, _, _, .minus hc hty, emits_output p "" _ g⟩
    · exact ⟨_, _, _, .negate hc hty, emits_output p "" _ g⟩
  | not =>
    rcases hty : e.type with (_ | _ | _) | _ | _ <;> rw [hty] at ha <;>
      simp [UnaryOp.accepts, Ty.scalar?] at ha
    · exact ⟨_, _, _, .complement hc hty, emits_output p "" _ g⟩
    · exact ⟨_, _, _, .not hc hty, emits_output p "" _ g⟩

theorem emits_part (p : Position) (aggregate : Ty) (base index : Ir.Operand) (g : Generator) :
    Emits (part p aggregate base index) g (.local (fresh p ".ptr" g.names))
      [.element (fresh p ".ptr" g.names) (machineType aggregate) base [.int 0, index]]
      (spend p ".ptr" g.names) :=
  emits_output p ".ptr" _ g

theorem emits_rebase (p : Position) (t : Ty) (v : Ir.Operand) (g : Generator)
    (hl : lowBound t ≠ 0) :
    Emits (rebase p t v) g (.local (fresh p ".idx" g.names))
      [.binary (fresh p ".idx" g.names) .sub .i32 v (.int (lowBound t))]
      (spend p ".idx" g.names) := by
  have hr : (rebase p t v : Step Ir.Operand) = do
      let output ← newName p ".idx"
      push (.binary output .sub .i32 v (.int (lowBound t)))
      return .local output := if_neg hl
  rw [hr]
  exact emits_output p ".idx" _ g

theorem emits_index {p : Position} {t : Ty} {a i : Expr} {ν₁ ν₂ : Names} {base v : Ir.Operand}
    {c₁ c₂ : List Ir.Instr} {g : Generator} (ha : PlaceCode a ν₁ base c₁ ν₂)
    (hi : ValueCode i ν₂ v c₂ g.names) :
    ∃ slot d μ, PlaceCode (.index p t a i) ν₁ slot (c₁ ++ c₂ ++ d) μ ∧
      Emits (do
        let w ← rebase p a.type v
        return Lowered.place (← part p a.type base w)) g (.place slot) d μ := by
  by_cases hl : lowBound a.type = 0
  · have hr : (rebase p a.type v : Step Ir.Operand) = Pure.pure v := if_pos hl
    rw [hr, pure_bind]
    exact ⟨_, _, _, .index ha hi hl, (emits_part p a.type base v g).map Lowered.place⟩
  · exact ⟨_, _, _, .rebased ha hi hl,
      (emits_rebase p a.type v g hl).bind ((emits_part p a.type base _ _).map Lowered.place)⟩

/-- The lowering of arguments, from that of each. -/
theorem emits_arguments {es : List Expr} {ts : List Ty} (hes : ∀ e ∈ es, Lowers e)
    (hl : Passable es ts) (g : Generator) :
    ∃ vs c ν, ArgsCode es ts g.names vs c ν ∧ Emits (lowerArguments es ts) g vs c ν := by
  induction hl generalizing g with
  | nil => exact ⟨_, _, _, .nil, by unfold lowerArguments; exact .pure _⟩
  | cons _ _ ih =>
    obtain ⟨he, hes⟩ := List.forall_mem_cons.1 hes
    obtain ⟨v, c, ν, hc, hv⟩ := he.emits_typed g _
    obtain ⟨vs, d, μ, hd, hvs⟩ := ih hes (g.emit c ν)
    refine ⟨_, _, _, .cons hc hd, ?_⟩
    rw [lowerArguments_cons]
    exact hv.bind (f := fun v => lowerArguments _ _ >>= fun vs => Pure.pure (_ :: vs)) (hvs.map _)

theorem lowers_int (p : Position) (v : UInt64) : Lowers (.int p v) :=
  .ofValue rfl fun _ => ⟨_, _, _, .int, by unfold lower; exact .pure _⟩

theorem lowers_unary {e : Expr} (h : Lowers e) (p : Position) (t : Ty) {op : UnaryOp}
    (ha : op.accepts e.type = true) : Lowers (.unary p t op e) := by
  refine .ofValue rfl fun g => ?_
  obtain ⟨v, c, ν, hc, hv⟩ := h.emits_value g
  obtain ⟨w, d, μ, hd, hw⟩ := emits_applyUnary (p := p) (t := t) ha hc (g := g.emit c ν) rfl
  refine ⟨w, c ++ d, μ, hd, ?_⟩
  rw [lower_unary]
  refine hv.bind ?_
  exact hw.map Lowered.value

theorem emits_applyBinary (p : Position) (op : BinOp) (t : Ty) (v w : Ir.Operand)
    (g : Generator) :
    Emits (applyBinary p op t v w) g (.local (fresh p "" g.names))
      [applied (fresh p "" g.names) op t v w] (spend p "" g.names) :=
  emits_output p "" (applied · op t v w) g

/-- Expressions that obey the rules are lowered to code of the right form. -/
theorem lowers_of_checked {Γ : Context} {e : Expr} (h : e.Checked Γ) : Lowers e := by
  induction h with
  | int => exact lowers_int _ _
  | double =>
    exact .ofValue rfl fun _ => ⟨_, _, _, .double, by unfold lower; exact .pure _⟩
  | bool =>
    exact .ofValue rfl fun _ => ⟨_, _, _, .bool, by unfold lower; exact .pure _⟩
  | negative => exact lowers_unary (lowers_int _ _) _ _ rfl
  | @var p t n st =>
    refine .ofPlace rfl fun g => ?_
    cases st with
    | global => exact ⟨_, _, _, .global, by unfold lower; exact .pure _⟩
    | routine => exact ⟨_, _, _, .routine, by unfold lower; exact .pure _⟩
  | unary _ ht ih => exact lowers_unary ih _ _ ht
  | @binary p op s l r _ _ ht ihl ihr =>
    refine .ofValue rfl fun g => ?_
    obtain ⟨v, c, ν, hc, hv⟩ := ihl.emits_typed g _
    obtain ⟨w, d, μ, hd, hw⟩ := ihr.emits_typed (g.emit c ν) _
    refine ⟨_, _, _, .binary hc hd, ?_⟩
    rw [lower_binary, List.append_assoc]
    exact hv.bind (hw.bind ((emits_applyBinary p op _ v w _).map Lowered.value))
  | @call p t n symbol args params _ _ hp ih =>
    refine .ofValue rfl fun g => ?_
    -- the result is named before the arguments are lowered
    obtain ⟨vs, c, ν, hc, hvs⟩ := emits_arguments ih hp (g.emit [] (spend p "" g.names))
    refine ⟨_, _, _, .call hc, ?_⟩
    unfold lower
    refine .bind (c := []) (.newName p "") ?_
    exact hvs.bind (.bind (.push _) (.pure _))
  | @index p low high t a i _ hd _ _ _ iha ihi =>
    refine .ofPlace rfl fun g => ?_
    obtain ⟨base, c₁, ν₁, hc₁, hbase⟩ := iha.emits_place g hd
    obtain ⟨v, c₂, ν₂, hc₂, hv⟩ := ihi.emits_value (g.emit c₁ ν₁)
    obtain ⟨slot, d, μ, hd, hslot⟩ :=
      emits_index (p := p) (t := t) hc₁ (g := (g.emit c₁ ν₁).emit c₂ ν₂) hc₂
    refine ⟨slot, _, μ, hd, ?_⟩
    rw [lower_index, List.append_assoc]
    exact hbase.bind (hv.bind hslot)
  | @field p t r n slot fields _ hd _ _ ih =>
    refine .ofPlace rfl fun g => ?_
    obtain ⟨base, c, ν, hc, hbase⟩ := ih.emits_place g hd
    refine ⟨_, _, _, .field hc, ?_⟩
    rw [lower_field]
    exact hbase.bind ((emits_part p r.type base _ _).map Lowered.place)

end MiniPascal.Lowering
