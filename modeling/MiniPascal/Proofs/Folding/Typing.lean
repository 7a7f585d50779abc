import MiniPascal.Proofs.Checked.Syntax

/-! The types of folded constants. -/

namespace MiniPascal

namespace Constant

variable {a b c : Constant} {m n : Int64} {p : Position} {x : Located SemanticError}

/-! ### Integers of 64 bits -/

theorem checked_large {n : Int} (h : ¬FitsLong n) (p : Position) :
    checked n p = .error ⟨p, .constantOverflow⟩ := by
  have hnone : ofInt? n = none := if_neg h
  rw [checked, hnone]

/-- A checked result is the integer itself, or the error for one that 64 bits do not hold. -/
theorem checked_cases (n : Int) (p : Position) :
    (∃ m : Int64, m.toInt = n ∧ checked n p = .ok (.int m)) ∨
      ¬FitsLong n ∧ checked n p = .error ⟨p, .constantOverflow⟩ := by
  by_cases hn : FitsLong n
  · have hm : (Int64.ofInt n).toInt = n := by
      unfold FitsLong at hn
      exact Int64.toInt_ofInt_of_le (by omega) (by omega)
    refine .inl ⟨Int64.ofInt n, hm, ?_⟩
    have hok := checked_toInt (Int64.ofInt n) p
    rwa [hm] at hok
  · exact .inr ⟨hn, checked_large hn p⟩

/-- The only quotient that 64 bits do not hold is that of the least integer by minus one. -/
theorem toInt_quotient (h : ¬(m = .minValue ∧ n = -1)) : (m / n).toInt = m.toInt.tdiv n.toInt := by
  by_cases hm : m = .minValue
  · have hn : n ≠ -1 := fun hn => h ⟨hm, hn⟩
    exact Int64.toInt_div_of_ne_right m n hn
  · exact Int64.toInt_div_of_ne_left m n hm

theorem not_fitsLong_quotient : ¬FitsLong (Int64.minValue.toInt.tdiv (-1 : Int64).toInt) := by
  unfold FitsLong
  decide

/-- What a division of two integers gives: an error where the divisor is zero, and one for the least
integer by minus one, where the quotient is too large. Otherwise it has a value. -/
def Divided (m n : Int64) (p : Position) (q : Int64) (r : Checked Constant) : Prop :=
  (n = 0 ∧ r = .error ⟨p, .divisionByZero⟩) ∨
    ((m = .minValue ∧ n = -1) ∧ r = .error ⟨p, .constantOverflow⟩) ∨
    (n ≠ 0 ∧ ¬(m = .minValue ∧ n = -1) ∧ r = .ok (.int q))

theorem Divided.of_ok {q : Int64} {r : Checked Constant} (h : Divided m n p q r)
    (hr : r = .ok c) : n ≠ 0 ∧ c = .int q := by
  subst hr
  rcases h with ⟨-, h⟩ | ⟨-, h⟩ | ⟨hn, -, h⟩
  · cases h
  · cases h
  · cases h
    exact ⟨hn, rfl⟩

theorem binaryInt_div (m n : Int64) (p : Position) :
    Divided m n p (m / n) (binaryInt .div m n p) := by
  by_cases hn : n = 0
  · exact .inl ⟨hn, if_pos hn⟩
  have hif : binaryInt .div m n p = checked (m.toInt.tdiv n.toInt) p := if_neg hn
  by_cases h : m = .minValue ∧ n = -1
  · obtain ⟨rfl, rfl⟩ := h
    exact .inr (.inl ⟨⟨rfl, rfl⟩, hif.trans (checked_large not_fitsLong_quotient p)⟩)
  · refine .inr (.inr ⟨hn, h, ?_⟩)
    rw [hif, ← toInt_quotient h, checked_toInt]

/-- The remainder is refused where the quotient is. -/
theorem binaryInt_mod (m n : Int64) (p : Position) :
    Divided m n p (m % n) (binaryInt .mod m n p) := by
  by_cases hn : n = 0
  · exact .inl ⟨hn, if_pos hn⟩
  have hif : binaryInt .mod m n p =
      (checked (m.toInt.tdiv n.toInt) p >>= fun _ => checked (m.toInt.tmod n.toInt) p) := if_neg hn
  by_cases h : m = .minValue ∧ n = -1
  · obtain ⟨rfl, rfl⟩ := h
    refine .inr (.inl ⟨⟨rfl, rfl⟩, ?_⟩)
    rw [hif, checked_large not_fitsLong_quotient p]
    rfl
  · refine .inr (.inr ⟨hn, h, ?_⟩)
    rw [hif, ← toInt_quotient h, checked_toInt, ← Int64.toInt_mod, checked_toInt]
    rfl

/-! ### The types of results -/

/-- The type that a constant is of. -/
def scalar : Constant → Scalar
  | int _ => .integer
  | double _ => .double
  | bool _ => .boolean

/-- A constant of a type, or one of the two errors that an operation at a position can have. -/
def Typed (p : Position) (s : Scalar) (r : Checked Constant) : Prop :=
  (∃ c, r = .ok c ∧ c.scalar = s) ∨ r = .error ⟨p, .constantOverflow⟩ ∨
    r = .error ⟨p, .divisionByZero⟩

namespace Typed

theorem ok (c : Constant) (p : Position) : Typed p c.scalar (.ok c) := .inl ⟨c, rfl, rfl⟩

theorem of_ok {s : Scalar} (h : Typed p s (.ok c)) : c.scalar = s := by
  rcases h with ⟨d, hd, hs⟩ | h | h
  · cases hd
    exact hs
  · cases h
  · cases h

/-- An error is one whatever the type of the result would be. -/
theorem of_error {s t : Scalar} (h : Typed p s (.error x)) : Typed p t (.error x) := by
  rcases h with ⟨d, hd, -⟩ | h | h
  · cases hd
  · exact .inr (.inl h)
  · exact .inr (.inr h)

theorem overflow (s : Scalar) : Typed p s (.error ⟨p, .constantOverflow⟩) := .inr (.inl rfl)

theorem divisionByZero (s : Scalar) : Typed p s (.error ⟨p, .divisionByZero⟩) := .inr (.inr rfl)

end Typed

theorem Divided.typed {q : Int64} {r : Checked Constant} (h : Divided m n p q r) :
    Typed p .integer r := by
  rcases h with ⟨-, rfl⟩ | ⟨-, rfl⟩ | ⟨-, -, rfl⟩
  · exact .divisionByZero _
  · exact .overflow _
  · exact .ok (.int q) p

theorem checked_typed (n : Int) (p : Position) : Typed p .integer (checked n p) := by
  rcases checked_cases n p with ⟨m, -, h⟩ | ⟨-, h⟩
  · rw [h]
    exact .ok (.int m) p
  · rw [h]
    exact .overflow _

/-- An operator that the rules admit in front of a constant has a value of the same type. -/
theorem unary_typed {op : UnaryOp} (ht : op.accepts (.scalar a.scalar) = true) (p : Position) :
    Typed p a.scalar (unary op a p) := by
  cases op <;> cases a <;> cases ht
  case minus.int => exact checked_typed _ p
  all_goals exact .ok _ p

theorem binaryInt_typed {op : BinOp} {s : Scalar} (ht : op.result? .integer .integer = some s)
    (m n : Int64) (p : Position) : Typed p s (binaryInt op m n p) := by
  cases op <;> cases ht
  case add | sub | mul => exact checked_typed _ p
  case div => exact (binaryInt_div m n p).typed
  case mod => exact (binaryInt_mod m n p).typed
  case divide =>
    rw [binaryInt]
    split
    · exact .divisionByZero _
    · exact .ok (.double _) p
  case and | or => exact .ok (.int _) p
  all_goals exact .ok (.bool _) p

theorem binaryDouble_typed {op : BinOp} {s : Scalar} (ht : op.result? .double .double = some s)
    (y z : Double) (p : Position) : Typed p s (binaryDouble op y z p) := by
  cases op <;> cases ht
  case add | sub | mul => exact .ok (.double _) p
  case divide =>
    rw [binaryDouble]
    split
    · exact .divisionByZero _
    · exact .ok (.double _) p
  all_goals exact .ok (.bool _) p

/-- Where one operand is a double, the rules treat the other as one. -/
theorem result_mixed (t : Ty) (ht : t.isNumeric = true) (op : BinOp) :
    op.result? t .double = op.result? .double .double ∧
      op.result? .double t = op.result? .double .double := by
  rcases t with (_ | _ | _) | _ | _ <;> cases ht <;> cases op <;> exact ⟨rfl, rfl⟩

theorem binary_double_left (op : BinOp) (y : Double) (b : Constant) (p : Position) :
    binary op (.double y) b p = binaryDouble op y b.toDouble p := by
  cases op <;> cases b <;> rfl

theorem binary_double_right (op : BinOp) (a : Constant) (z : Double) (p : Position) :
    binary op a (.double z) p = binaryDouble op a.toDouble z p := by
  cases op <;> cases a <;> rfl

/-- An operator that the rules admit between two constants has a value of the type that they give
it, unless this is too large or a divisor is zero. -/
theorem binary_typed {op : BinOp} {s : Scalar}
    (ht : op.result? (.scalar a.scalar) (.scalar b.scalar) = some s) (p : Position) :
    Typed p s (binary op a b p) := by
  cases a <;> cases b
  case int.int => exact binaryInt_typed ht _ _ p
  case bool.bool =>
    cases op <;> cases ht
    all_goals exact .ok (.bool _) p
  case int.double =>
    rw [binary_double_right]
    exact binaryDouble_typed ((result_mixed .integer rfl op).1 ▸ ht) _ _ p
  case double.int =>
    rw [binary_double_left]
    exact binaryDouble_typed ((result_mixed .integer rfl op).2 ▸ ht) _ _ p
  case double.double =>
    rw [binary_double_left]
    exact binaryDouble_typed ht _ _ p
  case int.bool | double.bool | bool.int | bool.double => cases op <;> cases ht

end Constant

/-! ### Expressions of literals -/

namespace Expr

/-- What the constructors that apply the rules of types make of literals. -/
inductive Constructed : Expr → Prop
  | int {p : Position} {v : UInt64} : Constructed (.int p v)
  | double {p : Position} {y : Double} : Constructed (.double p y)
  | bool {p : Position} {b : Bool} : Constructed (.bool p b)
  | unary {p : Position} {op : UnaryOp} {a e : Expr} (ha : Constructed a)
    (h : checkUnary op a p = .ok e) : Constructed e
  | binary {p : Position} {op : BinOp} {l r e : Expr} (hl : Constructed l) (hr : Constructed r)
    (h : checkBinary op l r p = .ok e) : Constructed e

/-- The expression and all operands in it: what is to the left comes first, and operands come
before their operation. -/
def postorder : Expr → List Expr
  | .unary p t op a => a.postorder ++ [.unary p t op a]
  | .binary p t op l r => l.postorder ++ r.postorder ++ [.binary p t op l r]
  | e => [e]

variable {e a l r : Expr} {p : Position}

theorem mem_postorder_self (e : Expr) : e ∈ e.postorder := by
  cases e with
  | unary | binary => exact List.mem_append_right _ List.mem_cons_self
  | _ => exact List.mem_cons_self

/-- A literal is its number, or too large for 64 bits with a sign. -/
theorem fold_int (p : Position) (v : UInt64) :
    (∃ m : Int64, m.toInt = v.toNat ∧ (Expr.int p v).fold = .ok (.int m)) ∨
      ¬Constant.FitsLong v.toNat ∧ (Expr.int p v).fold = .error ⟨p, .constantOverflow⟩ := by
  rw [fold, signed?]
  by_cases hv : v.toNat ≤ 0x7fffffffffffffff
  · rw [if_pos hv]
    exact .inl ⟨v.toInt64, toInt_toInt64 hv, rfl⟩
  · rw [if_neg hv]
    refine .inr ⟨?_, rfl⟩
    unfold Constant.FitsLong
    omega

theorem fold_unary {t : Ty} {op : UnaryOp} {c : Constant} (ha : a.fold = .ok c) :
    (Expr.unary p t op a).fold = Constant.unary op c p := by
  rw [fold, ha]
  rfl

theorem fold_unary_error {t : Ty} {op : UnaryOp} {x : Located SemanticError}
    (ha : a.fold = .error x) : (Expr.unary p t op a).fold = .error x := by
  rw [fold, ha]
  rfl

theorem fold_binary {t : Ty} {op : BinOp} {c d : Constant} (hl : l.fold = .ok c)
    (hr : r.fold = .ok d) : (Expr.binary p t op l r).fold = Constant.binary op c d p := by
  rw [fold, hl, hr]
  rfl

theorem fold_binary_left {t : Ty} {op : BinOp} {x : Located SemanticError}
    (hl : l.fold = .error x) : (Expr.binary p t op l r).fold = .error x := by
  rw [fold, hl]
  rfl

/-- The left operand is folded first, so an error in the right one is seen only behind it. -/
theorem fold_binary_right {t : Ty} {op : BinOp} {c : Constant} {x : Located SemanticError}
    (hl : l.fold = .ok c) (hr : r.fold = .error x) :
    (Expr.binary p t op l r).fold = .error x := by
  rw [fold, hl, hr]
  rfl

namespace Constructed

theorem of_accepts {op : UnaryOp} (ha : a.Constructed) (h : op.accepts a.type = true) :
    (Expr.unary p a.type op a).Constructed := by
  have hbuilt : checkUnary op a p = .ok (Expr.unary p a.type op a) := by
    rw [checkUnary, Typing.unary, if_pos h]
    rfl
  exact .unary ha hbuilt

theorem of_result {op : BinOp} {s : Scalar} (hl : l.Constructed) (hr : r.Constructed)
    (h : op.result? l.type r.type = some s) : (Expr.binary p (.scalar s) op l r).Constructed := by
  have hbuilt : checkBinary op l r p = .ok (Expr.binary p (.scalar s) op l r) := by
    rw [checkBinary, Typing.binary, h]
    rfl
  exact .binary hl hr hbuilt

/-- What is folded is typed: a constant of the type of the expression, or an error of one of the
subexpressions. -/
theorem typed (h : e.Constructed) : ∃ s, e.type = .scalar s ∧
    ∃ d ∈ e.postorder, Constant.Typed d.position s e.fold := by
  induction h with
  | @int p v =>
    refine ⟨.integer, rfl, .int p v, mem_postorder_self _, ?_⟩
    rcases fold_int p v with ⟨m, -, h⟩ | ⟨-, h⟩
    · rw [h]
      exact .ok (.int m) p
    · rw [h]
      exact .overflow _
  | double => exact ⟨.double, rfl, _, mem_postorder_self _, .ok (.double _) _⟩
  | bool => exact ⟨.boolean, rfl, _, mem_postorder_self _, .ok (.bool _) _⟩
  | @unary p op a e _ h ih =>
    obtain ⟨hop, rfl⟩ := checkUnary_ok h
    obtain ⟨s, hs, d, hd, ht⟩ := ih
    refine ⟨s, hs, ?_⟩
    -- an error of the operand is that of the operation, and stays at its place
    cases ha : a.fold with
    | error x =>
      refine ⟨d, List.mem_append_left _ hd, ?_⟩
      rw [fold_unary_error ha]
      rwa [ha] at ht
    | ok c =>
      rw [ha] at ht
      obtain rfl := ht.of_ok
      rw [hs] at hop
      refine ⟨_, mem_postorder_self _, ?_⟩
      rw [fold_unary ha]
      exact Constant.unary_typed hop p
  | @binary p op l r e _ _ h ihl ihr =>
    obtain ⟨s, hop, rfl⟩ := checkBinary_ok h
    obtain ⟨sl, hsl, dl, hdl, htl⟩ := ihl
    obtain ⟨sr, hsr, dr, hdr, htr⟩ := ihr
    refine ⟨s, rfl, ?_⟩
    cases hl : l.fold with
    | error x =>
      refine ⟨dl, List.mem_append_left _ (List.mem_append_left _ hdl), ?_⟩
      rw [fold_binary_left hl]
      rw [hl] at htl
      exact htl.of_error
    | ok a =>
      cases hr : r.fold with
      | error x =>
        refine ⟨dr, List.mem_append_left _ (List.mem_append_right _ hdr), ?_⟩
        rw [fold_binary_right hl hr]
        rw [hr] at htr
        exact htr.of_error
      | ok b =>
        rw [hl] at htl
        rw [hr] at htr
        obtain rfl := htl.of_ok
        obtain rfl := htr.of_ok
        rw [hsl, hsr] at hop
        refine ⟨_, mem_postorder_self _, ?_⟩
        rw [fold_binary hl hr]
        exact Constant.binary_typed hop p

/-- A folded constant has the type of the expression. -/
theorem type_eq (h : e.Constructed) {c : Constant} (hc : e.fold = .ok c) :
    e.type = .scalar c.scalar := by
  obtain ⟨s, hs, d, -, ht⟩ := h.typed
  rw [hc] at ht
  rw [hs, ht.of_ok]

/-- What the checks build of literals is folded to a constant of its type, or a result in it is too
large, or a divisor in it is zero. It is never reported not to be constant. -/
theorem fold_typed (h : e.Constructed) :
    ((∃ c, e.fold = .ok c ∧ e.type = .scalar c.scalar) ∨
      ∃ d ∈ e.postorder, e.fold = .error ⟨d.position, .constantOverflow⟩ ∨
        e.fold = .error ⟨d.position, .divisionByZero⟩) ∧
    ∀ q, e.fold ≠ .error ⟨q, .notConstant⟩ ∧
      ∀ op, e.fold ≠ .error ⟨q, .operatorNotConstant op⟩ := by
  obtain ⟨s, hs, d, hd, ht⟩ := h.typed
  rcases ht with ⟨c, hc, rfl⟩ | hx | hx
  · refine ⟨.inl ⟨c, hc, hs⟩, fun q => ⟨?_, fun op => ?_⟩⟩ <;> rw [hc] <;> nofun
  · refine ⟨.inr ⟨d, hd, .inl hx⟩, fun q => ⟨?_, fun op => ?_⟩⟩ <;> rw [hx] <;> nofun
  · refine ⟨.inr ⟨d, hd, .inr hx⟩, fun q => ⟨?_, fun op => ?_⟩⟩ <;> rw [hx] <;> nofun

/-- A quotient of integers is a double, and the comparison of it is not reached where the divisor is
zero. -/
theorem fold_typed_quotient :
    let e : Expr := .binary ⟨1, 9⟩ .boolean .less
      (.binary ⟨1, 3⟩ .double .divide (.int ⟨1, 1⟩ 1)
        (.binary ⟨1, 6⟩ .integer .sub (.int ⟨1, 5⟩ 2) (.int ⟨1, 7⟩ 2)))
      (.double ⟨1, 11⟩ ⟨0x3FE0000000000000⟩)
    e.Constructed ∧
    (((∃ c, e.fold = .ok c ∧ e.type = .scalar c.scalar) ∨
      ∃ d ∈ e.postorder, e.fold = .error ⟨d.position, .constantOverflow⟩ ∨
        e.fold = .error ⟨d.position, .divisionByZero⟩) ∧
      ∀ q, e.fold ≠ .error ⟨q, .notConstant⟩ ∧
        ∀ op, e.fold ≠ .error ⟨q, .operatorNotConstant op⟩) ∧
    e.fold = .error ⟨⟨1, 3⟩, .divisionByZero⟩ := by
  intro e
  have he : e.Constructed :=
    .of_result (.of_result .int (.of_result .int .int rfl) rfl) .double rfl
  exact ⟨he, he.fold_typed, rfl⟩

end Constructed

end Expr

end MiniPascal
