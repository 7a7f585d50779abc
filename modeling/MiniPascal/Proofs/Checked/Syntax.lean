import Mathlib.Data.List.Forall2
import MiniPascal.Grammar.Expression
import MiniPascal.Proofs.Checked.Type

/-! Expressions and statements that obey the rules of names and types. What is checked in one
context is checked in every larger one. -/

namespace MiniPascal

/-- The variables and the routines that can be used. -/
structure Context where
  var : Storage → Name → Ty → Prop
  routine : String → List Ty → Option Ty → Prop

/-- What one context has, another has too. -/
structure Context.Le (Γ Δ : Context) : Prop where
  var : ∀ st n t, Γ.var st n t → Δ.var st n t
  routine : ∀ symbol params returns, Γ.routine symbol params returns →
    Δ.routine symbol params returns

/-- Arguments that can be passed for parameters. -/
def Passable (args : List Expr) (params : List Ty) : Prop :=
  List.Forall₂ (fun e t => Typing.assignable t e.type = true) args params

namespace Expr

/-- Expressions that obey the rules. The literal of the least integer is the negation of one that is
too large to stand alone. -/
inductive Checked (Γ : Context) : Expr → Prop
  | int {p : Position} {v : UInt64} (hv : v.toNat ≤ Grammar.literalLimit) : Checked Γ (int p v)
  | double {p : Position} {x : Double} : Checked Γ (double p x)
  | bool {p : Position} {b : Bool} : Checked Γ (bool p b)
  | negative {p q : Position} {v : UInt64} (hv : v.toNat ≤ 0x80000000) :
    Checked Γ (unary p .integer .minus (int q v))
  | var {p : Position} {t : Ty} {n : Name} {st : Storage} (hn : Γ.var st n t)
    (ht : t.WellFormed) : Checked Γ (var p t n st)
  | unary {p : Position} {op : UnaryOp} {e : Expr} (he : Checked Γ e)
    (ht : op.accepts e.type = true) : Checked Γ (unary p e.type op e)
  | binary {p : Position} {op : BinOp} {s : Scalar} {l r : Expr} (hl : Checked Γ l)
    (hr : Checked Γ r) (ht : op.result? l.type r.type = some s) :
    Checked Γ (binary p (.scalar s) op l r)
  | call {p : Position} {t : Ty} {n : Name} {symbol : String} {args : List Expr}
    {params : List Ty} (hs : Γ.routine symbol params (some t)) (ha : ∀ e ∈ args, Checked Γ e)
    (hp : Passable args params) : Checked Γ (call p t n symbol args params)
  | index {p : Position} {low high : Expr} {t : Ty} {a i : Expr} (ha : Checked Γ a)
    (hd : a.isDesignator = true) (ht : a.type = .array low high t) (hi : Checked Γ i)
    (hit : i.type = .integer) : Checked Γ (index p t a i)
  | field {p : Position} {t : Ty} {r : Expr} {n : Name} {slot : Nat} {fields : List (Name × Ty)}
    (hr : Checked Γ r) (hd : r.isDesignator = true) (ht : r.type = .record fields)
    (hf : Ty.findField n fields = some (slot, t)) : Checked Γ (field p t r n slot)

variable {Γ Δ : Context}

theorem Checked.mono (hΓ : Γ.Le Δ) {e : Expr} (h : e.Checked Γ) : e.Checked Δ := by
  induction h with
  | int hv => exact .int hv
  | double => exact .double
  | bool => exact .bool
  | negative hv => exact .negative hv
  | var hn ht => exact .var (hΓ.var _ _ _ hn) ht
  | unary _ ht ih => exact .unary ih ht
  | binary _ _ ht ihl ihr => exact .binary ihl ihr ht
  | call hs _ hp ih => exact .call (hΓ.routine _ _ _ hs) ih hp
  | index _ hd ht _ hit iha ihi => exact .index iha hd ht ihi hit
  | field _ hd ht hf ih => exact .field ih hd ht hf

/-- The type of a designator is well formed. -/
theorem Checked.type_wellFormed {e : Expr} (h : e.Checked Γ) (hd : e.isDesignator = true) :
    e.type.WellFormed := by
  induction h with
  | int | double | bool | negative | unary | binary | call => cases hd
  | var _ ht => exact ht
  | index _ ha ht _ _ ih =>
    have := ih ha
    rw [ht, Ty.WellFormed] at this
    exact this.2
  | field _ hr ht hf ih =>
    have := ih hr
    rw [ht, Ty.WellFormed] at this
    exact Ty.findField_wellFormed this hf

/-- The literal of a constant of 32 bits obeys the rules. -/
theorem ofConstant_checked {c : Constant} (h : c.Fits) (p : Position) :
    (ofConstant c p).Checked Γ := by
  rcases c with n | x | b
  · rcases word_cases h with ⟨k, hk, hn, -, hu⟩ | ⟨k, hk, hn, -, hu⟩
    · rw [ofConstant, if_neg hn, hu]
      exact .int (by rwa [toNat_ofNat_word (Nat.le_trans hk (by decide))])
    · rw [ofConstant, if_pos hn, hu]
      exact .negative (by rwa [toNat_ofNat_word hk])
  · exact .double
  · exact .bool

theorem integer_of_isInteger {t : Ty} (h : t.isInteger = true) : t = .integer := by
  rcases t with (_ | _ | _) | _ | _ <;> first | rfl | cases h

/-- A binary operation is built of operands that its operator admits. -/
theorem checkBinary_ok {op : BinOp} {l r : Expr} {p : Position} {e : Expr}
    (h : checkBinary op l r p = .ok e) :
    ∃ s, op.result? l.type r.type = some s ∧ e = binary p (.scalar s) op l r := by
  unfold checkBinary Typing.binary at h
  split at h
  · rename_i s hs
    cases h
    exact ⟨s, hs, rfl⟩
  · cases h

/-- A unary operation is built of an operand that its operator accepts. -/
theorem checkUnary_ok {op : UnaryOp} {a : Expr} {p : Position} {e : Expr}
    (h : checkUnary op a p = .ok e) : op.accepts a.type = true ∧ e = unary p a.type op a := by
  unfold checkUnary Typing.unary at h
  split at h
  · rename_i ht
    cases h
    exact ⟨ht, rfl⟩
  · cases h

theorem checkBinary_checked {op : BinOp} {l r : Expr} (hl : l.Checked Γ) (hr : r.Checked Γ)
    {p : Position} {e : Expr} (h : checkBinary op l r p = .ok e) : e.Checked Γ := by
  obtain ⟨s, hs, rfl⟩ := checkBinary_ok h
  exact .binary hl hr hs

theorem checkUnary_checked {op : UnaryOp} {a : Expr} (ha : a.Checked Γ) {p : Position} {e : Expr}
    (h : checkUnary op a p = .ok e) : e.Checked Γ := by
  obtain ⟨ht, rfl⟩ := checkUnary_ok h
  exact .unary ha ht

/-- An index is an integer and selects in an array. -/
theorem checkIndex_ok {a i : Expr} {p : Position} {e : Expr} (h : checkIndex a i p = .ok e) :
    ∃ low high t, a.type = .array low high t ∧ i.type.isInteger = true ∧ e = .index p t a i := by
  unfold checkIndex Typing.element at h
  split at h
  · rename_i low high t ht
    split at h
    · rename_i hit
      cases h
      exact ⟨low, high, t, ht, hit, rfl⟩
    · cases h
  · cases h

theorem checkIndex_checked {a i : Expr} (ha : a.Checked Γ) (hd : a.isDesignator = true)
    (hi : i.Checked Γ) {p : Position} {e : Expr} (h : checkIndex a i p = .ok e) :
    e.Checked Γ ∧ e.isDesignator = true := by
  obtain ⟨low, high, t, ht, hit, rfl⟩ := checkIndex_ok h
  exact ⟨.index ha hd ht hi (integer_of_isInteger hit), rfl⟩

theorem checkField_checked {r : Expr} {n : Name} (hr : r.Checked Γ) (hd : r.isDesignator = true)
    {p : Position} {e : Expr} (h : checkField r n p = .ok e) :
    e.Checked Γ ∧ e.isDesignator = true := by
  obtain ⟨⟨slot, t⟩, hf, he⟩ : ∃ f, Typing.field r.type n p = .ok f ∧
      Expr.field p f.2 r n f.1 = e := by
    unfold checkField at h
    cases hf : Typing.field r.type n p with
    | error e => rw [hf] at h; cases h
    | ok f => rw [hf] at h; cases h; exact ⟨f, rfl, rfl⟩
  subst he
  unfold Typing.field at hf
  split at hf
  · cases ht : r.type with
    | record fields =>
      rw [ht] at hf
      simp only [Ty.field?] at hf
      split at hf
      · rename_i found hfound
        cases hf
        exact ⟨.field hr hd ht hfound, rfl⟩
      · cases hf
    | scalar | array => simp_all [Ty.isRecord]
  · cases hf

end Expr

/-- Things that can be written: texts and scalars. -/
def WriteArg.Checked (Γ : Context) : WriteArg → Prop
  | .text _ => True
  | .value e => e.Checked Γ ∧ ∃ s, e.type = .scalar s

namespace Stmt

/-- Statements that obey the rules. The flag tells whether a loop is around. -/
inductive Checked (Γ : Context) : Bool → Stmt → Prop
  | block {b : Bool} {ss : List Stmt} (hs : ∀ s ∈ ss, Checked Γ b s) : Checked Γ b (block ss)
  | ifThen {b : Bool} {c : Expr} {yes : Stmt} (hc : c.Checked Γ) (ht : c.type = .boolean)
    (hy : Checked Γ b yes) : Checked Γ b (ifElse c yes none)
  | ifElse {b : Bool} {c : Expr} {yes no : Stmt} (hc : c.Checked Γ) (ht : c.type = .boolean)
    (hy : Checked Γ b yes) (hn : Checked Γ b no) : Checked Γ b (ifElse c yes (some no))
  | forTo {b : Bool} {p : Position} {target first bound : Expr} {body : Stmt}
    (ht : target.Checked Γ) (hd : target.isDesignator = true) (htt : target.type = .integer)
    (hf : first.Checked Γ) (hft : first.type = .integer) (hb : bound.Checked Γ)
    (hbt : bound.type = .integer) (hs : Checked Γ true body) :
    Checked Γ b (forTo p target first bound body)
  | while {b : Bool} {c : Expr} {body : Stmt} (hc : c.Checked Γ) (ht : c.type = .boolean)
    (hs : Checked Γ true body) : Checked Γ b (.while c body)
  | repeatUntil {b : Bool} {c : Expr} {body : Stmt} (hs : Checked Γ true body) (hc : c.Checked Γ)
    (ht : c.type = .boolean) : Checked Γ b (repeatUntil body c)
  | assign {b : Bool} {target e : Expr} (ht : target.Checked Γ) (hd : target.isDesignator = true)
    (he : e.Checked Γ) (ha : Typing.assignable target.type e.type = true) :
    Checked Γ b (assign target e)
  | call {b : Bool} {n : Name} {symbol : String} {args : List Expr} {params : List Ty}
    {returns : Option Ty} (hs : Γ.routine symbol params returns) (ha : ∀ e ∈ args, e.Checked Γ)
    (hp : Passable args params) : Checked Γ b (call n symbol args params returns)
  | write {b newline : Bool} {args : List WriteArg} (ha : ∀ a ∈ args, a.Checked Γ) :
    Checked Γ b (write newline args)
  | transition {kind : Transition} {p : Position} : Checked Γ true (transition kind p)

mutual

/-- The number of labels that the code of a statement needs. -/
def labels : Stmt → Nat
  | block ss => labelsOfAll ss
  | ifElse _ yes none => yes.labels + 2
  | ifElse _ yes (some no) => yes.labels + no.labels + 3
  | forTo _ _ _ _ body => body.labels + 3
  | .while _ body => body.labels + 3
  | repeatUntil body _ => body.labels + 3
  | assign .. | call .. | write .. | transition .. => 0

/-- The number of labels that the code of some statements needs. -/
def labelsOfAll : List Stmt → Nat
  | [] => 0
  | s :: ss => s.labels + labelsOfAll ss

end

theorem labelsOfAll_append (ss ts : List Stmt) :
    labelsOfAll (ss ++ ts) = labelsOfAll ss + labelsOfAll ts := by
  induction ss with
  | nil => simp [labelsOfAll]
  | cons s ss ih => simp only [List.cons_append, labelsOfAll, ih, Nat.add_assoc]

variable {Γ Δ : Context}

theorem checked_block_append {b : Bool} {ss ts : List Stmt} (hs : (block ss).Checked Γ b)
    (ht : (block ts).Checked Γ b) : (block (ss ++ ts)).Checked Γ b := by
  cases hs with | block hs => cases ht with | block ht =>
  exact .block fun s h => (List.mem_append.1 h).elim (hs s) (ht s)

theorem Checked.mono (hΓ : Γ.Le Δ) {b : Bool} {s : Stmt} (h : s.Checked Γ b) : s.Checked Δ b := by
  induction h with
  | block _ ih => exact .block ih
  | ifThen hc ht _ ih => exact .ifThen (hc.mono hΓ) ht ih
  | ifElse hc ht _ _ ihy ihn => exact .ifElse (hc.mono hΓ) ht ihy ihn
  | forTo ht hd htt hf hft hb hbt _ ih =>
    exact .forTo (ht.mono hΓ) hd htt (hf.mono hΓ) hft (hb.mono hΓ) hbt ih
  | «while» hc ht _ ih => exact .while (hc.mono hΓ) ht ih
  | repeatUntil _ hc ht ih => exact .repeatUntil ih (hc.mono hΓ) ht
  | assign ht hd he ha => exact .assign (ht.mono hΓ) hd (he.mono hΓ) ha
  | call hs ha hp => exact .call (hΓ.routine _ _ _ hs) (fun e he => (ha e he).mono hΓ) hp
  | write ha =>
    refine .write fun a h => ?_
    cases a with
    | text => trivial
    | value e => exact (ha _ h).imp_left (·.mono hΓ)
  | transition => exact .transition

end Stmt

end MiniPascal
