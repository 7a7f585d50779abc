import Mathlib.Algebra.Order.Group.Int
import Mathlib.Data.Int.Bitwise
import Mathlib.Order.Compare
import MiniPascal.Proofs.Folding.Typing
import MiniPascal.Proofs.Semantics.Source

/-! Folding has the exact value of an expression or stops at the first subexpression that has none
in 64 bits. -/

namespace MiniPascal

/-! ### The bits of integers -/

section Bits

variable {w : Nat}

/-- Integers with the same bits are equal: the bits far up tell the sign. -/
theorem eq_of_testBit {m n : Int} (h : ∀ k, m.testBit k = n.testBit k) : m = n := by
  have hhigh (a b : Nat) : a.testBit (a + b) = false ∧ b.testBit (a + b) = false := by
    have hlt := Nat.lt_two_pow_self (n := a + b)
    exact ⟨Nat.testBit_lt_two_pow (by omega), Nat.testBit_lt_two_pow (by omega)⟩
  match m, n with
  | .ofNat a, .ofNat b => exact congrArg Int.ofNat (Nat.eq_of_testBit_eq h)
  | .negSucc a, .negSucc b =>
    exact congrArg Int.negSucc (Nat.eq_of_testBit_eq fun k => Bool.not_inj (h k))
  | .ofNat a, .negSucc b =>
    have hk : a.testBit (a + b) = !b.testBit (a + b) := h (a + b)
    rw [(hhigh a b).1, (hhigh a b).2] at hk
    cases hk
  | .negSucc a, .ofNat b =>
    have hk : (!a.testBit (a + b)) = b.testBit (a + b) := h (a + b)
    rw [(hhigh a b).1, (hhigh a b).2] at hk
    cases hk

theorem toInt_eq_cond (x : BitVec w) :
    x.toInt = if x.msb then Int.negSucc (~~~x).toNat else Int.ofNat x.toNat := by
  rw [BitVec.toInt_eq_msb_cond, BitVec.toNat_not]
  have hlt := x.isLt
  split
  · rw [Int.negSucc_eq]
    have hpow : ((2 ^ w : Nat) : Int) = 2 ^ w := by push_cast; rfl
    omega
  · rfl

/-- The bits of the integer of a word: above the width, the sign goes on. -/
theorem testBit_toInt (x : BitVec w) (k : Nat) :
    x.toInt.testBit k = if k < w then x.getLsbD k else x.msb := by
  rw [toInt_eq_cond]
  cases hm : x.msb
  · rw [if_neg Bool.false_ne_true]
    change x.getLsbD k = _
    split
    · rfl
    · exact BitVec.getLsbD_of_ge x k (by omega)
  · rw [if_pos rfl]
    change (!(~~~x).getLsbD k) = _
    rw [BitVec.getLsbD_not]
    split
    · simp only [*, decide_true, Bool.true_and, Bool.not_not]
    · simp only [*, decide_false, Bool.false_and, Bool.not_false]

theorem toInt_and (m n : Int64) : (m &&& n).toInt = m.toInt.land n.toInt := by
  refine eq_of_testBit fun k => ?_
  rw [Int.testBit_land]
  change (m.toBitVec &&& n.toBitVec).toInt.testBit k =
    (m.toBitVec.toInt.testBit k && n.toBitVec.toInt.testBit k)
  rw [testBit_toInt, testBit_toInt, testBit_toInt, BitVec.getLsbD_and, BitVec.msb_and]
  split <;> rfl

theorem toInt_or (m n : Int64) : (m ||| n).toInt = m.toInt.lor n.toInt := by
  refine eq_of_testBit fun k => ?_
  rw [Int.testBit_lor]
  change (m.toBitVec ||| n.toBitVec).toInt.testBit k =
    (m.toBitVec.toInt.testBit k || n.toBitVec.toInt.testBit k)
  rw [testBit_toInt, testBit_toInt, testBit_toInt, BitVec.getLsbD_or, BitVec.msb_or]
  split <;> rfl

theorem complement_eq (n : Int) : ~~~n = -n - 1 := by
  match n with
  | .ofNat a =>
    change Int.negSucc a = -(a : Int) - 1
    omega
  | .negSucc a =>
    change (a : Int) = -Int.negSucc a - 1
    omega

theorem toInt_complement (m : Int64) : (~~~m).toInt = ~~~m.toInt := by
  have hle := m.le_toInt
  have hlt := m.toInt_lt
  rw [Int64.toInt_not, complement_eq]
  exact Int.bmod_eq_of_le (by omega) (by omega)

end Bits

/-! ### Exact values -/

/-- An integer without bounds, or a truth value. -/
inductive Exact where
  | int (n : Int)
  | bool (b : Bool)
  deriving DecidableEq

/-- What an operator makes of two integers. Quotients are truncated, and remainders have the sign of
the dividend. -/
def BinOp.exactInts : BinOp → Int → Int → Option Exact
  | .add, m, n => some (.int (m + n))
  | .sub, m, n => some (.int (m - n))
  | .mul, m, n => some (.int (m * n))
  | .div, m, n => if n = 0 then none else some (.int (m.tdiv n))
  | .mod, m, n => if n = 0 then none else some (.int (m.tmod n))
  | .and, m, n => some (.int (m.land n))
  | .or, m, n => some (.int (m.lor n))
  | op, m, n => do return .bool ((← op.demand?) (compare m n))

/-- What an operator makes of two truth values. -/
def BinOp.exactBools : BinOp → Bool → Bool → Option Exact
  | .and, a, b => some (.bool (a && b))
  | .or, a, b => some (.bool (a || b))
  | op, a, b => do return .bool ((← op.demand?) (compare a b))

/-- What an operator makes of two exact values. -/
def BinOp.exact (op : BinOp) : Exact → Exact → Option Exact
  | .int m, .int n => op.exactInts m n
  | .bool a, .bool b => op.exactBools a b
  | _, _ => none

/-- What an operator makes of one exact value. -/
def UnaryOp.exact : UnaryOp → Exact → Option Exact
  | .plus, .int n => some (.int n)
  | .minus, .int n => some (.int (-n))
  | .not, .int n => some (.int (~~~n))
  | .not, .bool b => some (.bool !b)
  | _, _ => none

namespace Constant

/-- The exact value that a constant stands for, unless it is a double. -/
def exactValue? : Constant → Option Exact
  | int n => some (.int n.toInt)
  | bool b => some (.bool b)
  | double _ => none

theorem fitsLong_of_exactValue {c : Constant} {n : Int} (h : c.exactValue? = some (.int n)) :
    FitsLong n := by
  cases c <;> cases h
  exact fitsLong_toInt _

theorem compareInt_eq {op : BinOp} {f : Ordering → Bool} (h : op.demand? = some f) (m n : Int) :
    compareInt op m n = f (compare m n) := by
  rcases lt_trichotomy m n with hmn | rfl | hmn
  · rw [compare_lt_iff_lt.mpr hmn]
    cases op <;> cases h <;> simp [compareInt] <;> omega
  · rw [compare_eq_iff_eq.mpr rfl]
    cases op <;> cases h <;> simp [compareInt]
  · rw [compare_gt_iff_gt.mpr hmn]
    cases op <;> cases h <;> simp [compareInt] <;> omega

theorem binaryInt_demand {op : BinOp} {f : Ordering → Bool} (h : op.demand? = some f) (m n : Int64)
    (p : Position) : binaryInt op m n p = .ok (.bool (f (compare m.toInt n.toInt))) := by
  rw [← compareInt_eq h]
  cases op <;> cases h <;> rfl

end Constant

theorem BinOp.exactInts_demand {op : BinOp} {f : Ordering → Bool} (h : op.demand? = some f)
    (m n : Int) : op.exactInts m n = some (.bool (f (compare m n))) := by
  cases op <;> cases h <;> rfl

namespace Expr

/-- Literals of integers and truth values under operators other than the division of doubles. -/
def isIntegral : Expr → Bool
  | .int _ _ => true
  | .bool _ _ => true
  | .unary _ _ _ a => a.isIntegral
  | .binary _ _ op l r => op != .divide && l.isIntegral && r.isIntegral
  | _ => false

/-- The exact value of an expression, unless a divisor is zero. -/
def exact : Expr → Option Exact
  | .int _ v => some (.int v.toNat)
  | .bool _ b => some (.bool b)
  | .unary _ _ op a => do op.exact (← a.exact)
  | .binary _ _ op l r => do op.exact (← l.exact) (← r.exact)
  | _ => none

/-- What is wrong with an expression itself, whatever is wrong with its operands. -/
inductive Offends : Expr → SemanticError → Prop
  | large {e : Expr} {n : Int} (he : e.exact = some (.int n)) (hn : ¬Constant.FitsLong n) :
    Offends e .constantOverflow
  | divisor {p : Position} {t : Ty} {op : BinOp} {l r : Expr} (hop : op = .div ∨ op = .mod)
    (hr : r.exact = some (.int 0)) : Offends (.binary p t op l r) .divisionByZero
  | remainder {p : Position} {t : Ty} {l r : Expr}
    (hl : l.exact = some (.int (-0x8000000000000000))) (hr : r.exact = some (.int (-1))) :
    Offends (.binary p t .mod l r) .constantOverflow

/-- Nothing is wrong with the expression itself. -/
def Faultless (e : Expr) : Prop := ∀ x, ¬e.Offends x

/-- An expression whose operands have been folded has its exact value, and nothing is wrong with it,
or what is wrong with it is reported. -/
def Settles (e : Expr) : Prop :=
  (∃ c v, e.fold = .ok c ∧ c.exactValue? = some v ∧ e.exact = some v ∧ e.Faultless) ∨
    ∃ x, e.Offends x ∧ e.fold = .error ⟨e.position, x⟩

/-- The first expression in the list that something is wrong with. -/
def FirstOffence (es : List Expr) (r : MiniPascal.Checked Constant) : Prop :=
  ∃ before d after x, es = before ++ d :: after ∧ (∀ b ∈ before, b.Faultless) ∧ d.Offends x ∧
    r = .error ⟨d.position, x⟩

/-- An expression has its exact value, and nothing is wrong in it, or its first offence is
reported. -/
def Verdict (e : Expr) : Prop :=
  (∃ c v, e.fold = .ok c ∧ c.exactValue? = some v ∧ e.exact = some v ∧
      ∀ d ∈ e.postorder, d.Faultless) ∨
    FirstOffence e.postorder e.fold

variable {e a l r : Expr} {p : Position} {c d : Constant} {v w : Exact}

theorem isIntegral_binary {t : Ty} {op : BinOp} : (Expr.binary p t op l r).isIntegral = true ↔
    op ≠ .divide ∧ l.isIntegral = true ∧ r.isIntegral = true := by
  simp only [isIntegral, Bool.and_eq_true, bne_iff_ne, ne_eq, and_assoc]

theorem exact_unary {t : Ty} {op : UnaryOp} (ha : a.exact = some v) :
    (Expr.unary p t op a).exact = op.exact v := by
  rw [exact, ha]
  rfl

theorem exact_binary {t : Ty} {op : BinOp} (hl : l.exact = some v) (hr : r.exact = some w) :
    (Expr.binary p t op l r).exact = op.exact v w := by
  rw [exact, hl, hr]
  rfl

/-- A quotient and a remainder by zero have no value. -/
theorem exact_divisor {t : Ty} {op : BinOp} (hop : op = .div ∨ op = .mod)
    (hr : r.exact = some (.int 0)) : (Expr.binary p t op l r).exact = none := by
  cases hl : l.exact with
  | none =>
    rw [exact, hl]
    rfl
  | some v =>
    rw [exact_binary hl hr]
    rcases hop with rfl | rfl <;> cases v <;> rfl

/-- The remainder that is refused has a value that is not too large. -/
def Refused (e : Expr) : Prop :=
  ∃ p t l r, e = .binary p t .mod l r ∧ l.exact = some (.int (-0x8000000000000000)) ∧
    r.exact = some (.int (-1))

theorem settles_ok (hf : e.fold = .ok c) (hc : c.exactValue? = some v) (he : e.exact = some v)
    (hr : ¬e.Refused) : e.Settles := by
  refine .inl ⟨c, v, hf, hc, he, fun x hx => ?_⟩
  cases hx with
  | large hn hlarge =>
    cases he.symm.trans hn
    exact hlarge (Constant.fitsLong_of_exactValue hc)
  | divisor hop hzero => cases he.symm.trans (exact_divisor hop hzero)
  | remainder hl hminus => exact hr ⟨_, _, _, _, rfl, hl, hminus⟩

theorem settles_checked {n : Int} (hf : e.fold = Constant.checked n e.position)
    (he : e.exact = some (.int n)) (hr : ¬e.Refused) : e.Settles := by
  rcases Constant.checked_cases n e.position with ⟨m, hm, h⟩ | ⟨hn, h⟩
  · exact settles_ok (hf.trans h) (congrArg (some ∘ Exact.int) hm) he hr
  · exact .inr ⟨_, .large he hn, hf.trans h⟩

theorem unary_settles {t : Ty} {op : UnaryOp} (ht : op.accepts (.scalar c.scalar) = true)
    (ha : a.fold = .ok c) (hc : c.exactValue? = some v) (hv : a.exact = some v) :
    (Expr.unary p t op a).Settles := by
  have hf : (Expr.unary p t op a).fold = Constant.unary op c p := fold_unary ha
  have he : (Expr.unary p t op a).exact = op.exact v := exact_unary hv
  have hr : ¬(Expr.unary p t op a).Refused := nofun
  cases c <;> cases hc
  case int m =>
    cases op
    case plus => exact settles_ok hf rfl he hr
    case minus => exact settles_checked hf he hr
    case not => exact settles_ok hf (congrArg (some ∘ Exact.int) (toInt_complement m)) he hr
  case bool b =>
    cases op <;> cases ht
    exact settles_ok hf rfl he hr

theorem binary_settles_ints {t : Ty} {op : BinOp} {s : Scalar} {m n : Int64} (hop : op ≠ .divide)
    (ht : op.result? .integer .integer = some s) (hl : l.fold = .ok (.int m))
    (hm : l.exact = some (.int m.toInt)) (hr : r.fold = .ok (.int n))
    (hn : r.exact = some (.int n.toInt)) : (Expr.binary p t op l r).Settles := by
  have hf : (Expr.binary p t op l r).fold = Constant.binaryInt op m n p := by
    rw [fold_binary hl hr]
    cases op <;> rfl
  have he : (Expr.binary p t op l r).exact = op.exactInts m.toInt n.toInt := exact_binary hm hn
  have hzero (h : n ≠ 0) : n.toInt ≠ 0 := fun hn => h (Int64.toInt_inj.mp hn)
  cases op <;> cases ht
  case add | sub | mul => exact settles_checked hf he nofun
  case and => exact settles_ok hf (congrArg (some ∘ Exact.int) (toInt_and m n)) he nofun
  case or => exact settles_ok hf (congrArg (some ∘ Exact.int) (toInt_or m n)) he nofun
  case div =>
    rcases Constant.binaryInt_div m n p with ⟨rfl, h⟩ | ⟨⟨rfl, rfl⟩, h⟩ | ⟨hn0, hq, h⟩
    · exact .inr ⟨_, .divisor (.inl rfl) hn, hf.trans h⟩
    · exact .inr ⟨_, .large he Constant.not_fitsLong_quotient, hf.trans h⟩
    · exact settles_ok (hf.trans h) (congrArg (some ∘ Exact.int) (Constant.toInt_quotient hq))
        (he.trans (if_neg (hzero hn0))) nofun
  case mod =>
    rcases Constant.binaryInt_mod m n p with ⟨rfl, h⟩ | ⟨⟨rfl, rfl⟩, h⟩ | ⟨hn0, hq, h⟩
    · exact .inr ⟨_, .divisor (.inr rfl) hn, hf.trans h⟩
    · exact .inr ⟨_, .remainder hm hn, hf.trans h⟩
    · refine settles_ok (hf.trans h) (congrArg (some ∘ Exact.int) (Int64.toInt_mod m n))
        (he.trans (if_neg (hzero hn0))) ?_
      -- operands with these exact values are these words
      rintro ⟨_, _, _, _, heq, hmin, hminus⟩
      cases heq
      have hleast := Exact.int.inj (Option.some.inj (hm.symm.trans hmin))
      have hone := Exact.int.inj (Option.some.inj (hn.symm.trans hminus))
      exact hq ⟨Int64.toInt_inj.mp hleast, Int64.toInt_inj.mp hone⟩
  case divide => exact absurd rfl hop
  -- the relations
  all_goals
    exact settles_ok (hf.trans (Constant.binaryInt_demand rfl m n p)) rfl
      (he.trans (BinOp.exactInts_demand rfl _ _)) nofun

theorem binary_settles {t : Ty} {op : BinOp} {s : Scalar} (hop : op ≠ .divide)
    (ht : op.result? (.scalar c.scalar) (.scalar d.scalar) = some s) (hl : l.fold = .ok c)
    (hc : c.exactValue? = some v) (hv : l.exact = some v) (hr : r.fold = .ok d)
    (hd : d.exactValue? = some w) (hw : r.exact = some w) : (Expr.binary p t op l r).Settles := by
  have hf : (Expr.binary p t op l r).fold = Constant.binary op c d p := fold_binary hl hr
  have he : (Expr.binary p t op l r).exact = op.exact v w := exact_binary hv hw
  cases c <;> cases d <;> cases hc <;> cases hd
  case int.int => exact binary_settles_ints hop ht hl hv hr hw
  case bool.bool a b =>
    cases op <;> cases ht
    case and | or => exact settles_ok hf rfl he nofun
    all_goals
      refine settles_ok hf rfl (he.trans ?_) nofun
      cases a <;> cases b <;> rfl
  case int.bool | bool.int => cases op <;> cases ht

/-! ### Trees -/

theorem FirstOffence.error {es : List Expr} {x : MiniPascal.Checked Constant}
    (h : FirstOffence es x) : ∃ y, x = .error y := by
  obtain ⟨_, d, _, y, -, -, -, hx⟩ := h
  exact ⟨⟨d.position, y⟩, hx⟩

/-- The first offence of an operand is the first one of the operation, if nothing is wrong in the
operands in front. -/
theorem FirstOffence.within {es back : List Expr} {x : MiniPascal.Checked Constant}
    (h : FirstOffence es x) (front : List Expr) (hfront : ∀ d ∈ front, d.Faultless) :
    FirstOffence (front ++ es ++ back) x := by
  obtain ⟨before, d, after, y, rfl, hbefore, hd, hx⟩ := h
  refine ⟨front ++ before, d, after ++ back, y, by simp, ?_, hd, hx⟩
  intro b hb
  rcases List.mem_append.mp hb with hb | hb
  · exact hfront b hb
  · exact hbefore b hb

theorem Settles.verdict (h : e.Settles) (front : List Expr) (hp : e.postorder = front ++ [e])
    (hfront : ∀ d ∈ front, d.Faultless) : e.Verdict := by
  rcases h with ⟨c, v, hf, hc, hv, he⟩ | ⟨x, hx, hf⟩
  · refine .inl ⟨c, v, hf, hc, hv, ?_⟩
    intro d hd
    rw [hp] at hd
    rcases List.mem_append.mp hd with hd | hd
    · exact hfront d hd
    · rwa [List.mem_singleton.mp hd]
  · exact .inr ⟨front, e, [], x, hp, hfront, hx, hf⟩

namespace Constructed

theorem verdict (h : e.Constructed) (hi : e.isIntegral = true) : e.Verdict := by
  induction h with
  | @int p v =>
    have hs : (Expr.int p v).Settles := by
      rcases fold_int p v with ⟨m, hm, hf⟩ | ⟨hv, hf⟩
      · exact settles_ok hf (congrArg (some ∘ Exact.int) hm) rfl nofun
      · exact .inr ⟨_, .large rfl hv, hf⟩
    exact hs.verdict [] rfl (List.forall_mem_nil _)
  | double => cases hi
  | @bool p b =>
    have hs : (Expr.bool p b).Settles := settles_ok rfl rfl rfl nofun
    exact hs.verdict [] rfl (List.forall_mem_nil _)
  | @unary p op a e ha h ih =>
    obtain ⟨hop, rfl⟩ := checkUnary_ok h
    rcases ih hi with ⟨c, v, hf, hc, hv, hds⟩ | hfirst
    · rw [ha.type_eq hf] at hop
      exact (unary_settles hop hf hc hv).verdict _ rfl hds
    · refine .inr ?_
      obtain ⟨x, hf⟩ := hfirst.error
      rw [fold_unary_error hf, ← hf]
      exact hfirst.within [] (List.forall_mem_nil _)
  | @binary p op l r e hl hr h ihl ihr =>
    obtain ⟨s, hop, rfl⟩ := checkBinary_ok h
    obtain ⟨hdiv, hil, hir⟩ := isIntegral_binary.1 hi
    -- the right operand counts only if nothing is wrong in the left one
    rcases ihl hil with ⟨a, v, hfl, ha, hv, hls⟩ | hfirst
    · rcases ihr hir with ⟨b, w, hfr, hb, hw, hrs⟩ | hfirst
      · rw [hl.type_eq hfl, hr.type_eq hfr] at hop
        refine (binary_settles hdiv hop hfl ha hv hfr hb hw).verdict _ rfl fun d hd => ?_
        exact (List.mem_append.mp hd).elim (hls d) (hrs d)
      · refine .inr ?_
        obtain ⟨x, hf⟩ := hfirst.error
        rw [fold_binary_right hfl hf, ← hf]
        exact hfirst.within _ hls
    · refine .inr ?_
      obtain ⟨x, hf⟩ := hfirst.error
      rw [fold_binary_left hf, ← hf, postorder, List.append_assoc]
      exact hfirst.within [] (List.forall_mem_nil _)

/-- An expression of integers and truth values is folded to its exact value if nothing is wrong in
it: no result is too large, no divisor is zero, and no remainder is the one of the least integer by
minus one. Otherwise the first offence is reported, where it is. -/
theorem fold_exact (h : e.Constructed) (hi : e.isIntegral = true) :
    ((∃ c, e.fold = .ok c) ↔ ∀ d ∈ e.postorder, d.Faultless) ∧
    (∀ c, e.fold = .ok c → ∃ v, e.exact = some v ∧ c.exactValue? = some v) ∧
    ((¬∀ d ∈ e.postorder, d.Faultless) → FirstOffence e.postorder e.fold) := by
  rcases h.verdict hi with ⟨c, v, hf, hc, hv, hds⟩ | hfirst
  · refine ⟨⟨fun _ => hds, fun _ => ⟨c, hf⟩⟩, ?_, fun hn => absurd hds hn⟩
    intro d hd
    rw [hf] at hd
    cases hd
    exact ⟨v, hv, hc⟩
  · obtain ⟨before, d, after, x, hp, -, hd, hf⟩ := id hfirst
    have hnot : ¬∀ d ∈ e.postorder, d.Faultless := by
      intro hall
      refine hall d ?_ x hd
      rw [hp]
      exact List.mem_append_right _ List.mem_cons_self
    have hc (c : Constant) : e.fold ≠ .ok c := by
      rw [hf]
      nofun
    exact ⟨⟨fun ⟨c, h⟩ => absurd h (hc c), fun hall => absurd hall hnot⟩,
      fun c h => absurd h (hc c), fun _ => hfirst⟩

/-- The sum is too large before its division by zero is seen. -/
theorem fold_exact_sum :
    let e : Expr := .binary ⟨1, 24⟩ .integer .div
      (.binary ⟨1, 21⟩ .integer .add (.int ⟨1, 1⟩ 9223372036854775807) (.int ⟨1, 23⟩ 1))
      (.int ⟨1, 28⟩ 0)
    e.Constructed ∧ e.isIntegral = true ∧
    (((∃ c, e.fold = .ok c) ↔ ∀ d ∈ e.postorder, d.Faultless) ∧
      (∀ c, e.fold = .ok c → ∃ v, e.exact = some v ∧ c.exactValue? = some v) ∧
      ((¬∀ d ∈ e.postorder, d.Faultless) → FirstOffence e.postorder e.fold)) ∧
    e.fold = .error ⟨⟨1, 21⟩, .constantOverflow⟩ := by
  intro e
  have he : e.Constructed := .of_result (.of_result .int .int rfl) .int rfl
  exact ⟨he, rfl, he.fold_exact rfl, rfl⟩

end Constructed

end Expr

end MiniPascal
