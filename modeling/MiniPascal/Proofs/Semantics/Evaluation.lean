import Mathlib
import MiniPascal.Proofs.Semantics.Expression

/-! Lowered expressions compute what they mean. -/

namespace MiniPascal

open Lowering (machineType)

/-! ### Faults -/

namespace BinOp

variable {op : BinOp}

theorem onInts_eq_none {m n : Int32} (h : op.onInts m n = none) :
    (op = .div ∨ op = .mod) ∧ n = 0 ∨ op = .divide := by
  cases op <;> simp [onInts, demand?] at h ⊢
  all_goals exact h

theorem onDoubles_eq_none {F : Floats} {x y : Double} (h : op.onDoubles F x y = none) :
    op.isRelational = true ∧ F.compare x y = none ∨ op = .div ∨ op = .mod ∨ op = .and ∨
      op = .or := by
  cases op <;> simp [onDoubles, demand?, isRelational] at h ⊢
  all_goals exact Option.eq_none_iff_forall_ne_some.2 h

theorem onBools_eq_none {a b : Bool} (h : op.onBools a b = none) :
    op.result? .boolean .boolean = none := by
  cases op <;> simp [onBools, demand?] at h ⊢ <;> rfl

/-- Operators that are for integers only have no result where one operand is a double. -/
theorem result_double {a b : Scalar} (hab : a = .double ∨ b = .double)
    (h : op = .div ∨ op = .mod ∨ op = .and ∨ op = .or) :
    op.result? (.scalar a) (.scalar b) = none := by
  rcases hab with rfl | rfl <;> rcases h with rfl | rfl | rfl | rfl
  · cases b <;> rfl
  · cases b <;> rfl
  · cases b <;> rfl
  · cases b <;> rfl
  all_goals cases a <;> rfl

/-- An operator has no result only for a divisor that is zero, and for doubles that are compared and
not ordered. -/
theorem apply_eq_none {F : Floats} {l r : Ty} {s : Scalar} {v w : Val}
    (ht : op.result? l r = some s) (hv : v.HasType (machineType l))
    (hw : w.HasType (machineType r)) (h : op.apply F v w = none) :
    ((op = .div ∨ op = .mod) ∧ w = .int 0) ∨
      op.isRelational = true ∧ (l = .double ∨ r = .double) ∧ ∃ x y,
        v.convert F .double = .double x ∧ w.convert F .double = .double y ∧
        F.compare x y = none := by
  obtain ⟨⟨a, rfl⟩, b, rfl⟩ := Lowering.scalars_of_result ht
  have hdoubles : ∀ {x y : Double}, op.onDoubles F x y = none → (a = .double ∨ b = .double) →
      op.isRelational = true ∧ F.compare x y = none := by
    intro x y h hab
    rcases onDoubles_eq_none h with h | h
    · exact h
    · rw [result_double hab h] at ht
      cases ht
  -- one case for each pair of scalar types that an operator can have
  cases a <;> cases b <;> simp only [machineType] at hv hw <;> cases hv <;> cases hw <;>
    simp only [apply] at h
  case integer.integer m n =>
    split at h
    · rename_i hop
      subst hop
      cases h
    · rename_i hop
      rcases onInts_eq_none h with ⟨hdiv, rfl⟩ | hdivide
      · exact .inl ⟨hdiv, rfl⟩
      · exact absurd hdivide hop
  case boolean.boolean =>
    have hnone := (onBools_eq_none h).symm.trans ht
    cases hnone
  case integer.boolean | double.boolean | boolean.integer | boolean.double =>
    cases op <;> cases ht
  case integer.double =>
    obtain ⟨hop, h⟩ := hdoubles h (.inr rfl)
    exact .inr ⟨hop, .inr rfl, _, _, Val.convert_int F rfl _, rfl, h⟩
  case double.integer =>
    obtain ⟨hop, h⟩ := hdoubles h (.inl rfl)
    exact .inr ⟨hop, .inl rfl, _, _, rfl, Val.convert_int F rfl _, h⟩
  case double.double =>
    obtain ⟨hop, h⟩ := hdoubles h (.inl rfl)
    exact .inr ⟨hop, .inl rfl, _, _, rfl, rfl, h⟩

end BinOp

namespace Expr

variable {Γ : Context} {D : Layout} {ρ : Stores} {F : Floats}

/-- An expression that obeys the rules has a value, and a designator has a site, unless evaluation
meets a fault. -/
theorem Checked.evaluates (hΓ : D.Covers Γ) (hρ : ρ.Fits D) {e : Expr} (h : e.Checked Γ)
    (hf : e.callFree = true) (hok : ¬e.Fails F ρ) :
    (e.isDesignator = true → ∃ s, e.site F ρ = some s) ∧ ∃ v, e.evalIn F ρ = some v := by
  -- what lies at the site of a designator can be read
  have hread : ∀ {e : Expr}, e.Checked Γ → e.isDesignator = true → ∀ {s},
      e.site F ρ = some s → ∃ v, e.evalIn F ρ = some v := by
    intro e he hd s hs
    obtain ⟨v, hv, -⟩ := (hρ s.storage).read ((he.typed hΓ hρ).1 s hs)
    rw [evalIn_designator hd, hs]
    exact ⟨v, hv⟩
  have hvalue : ∀ {e : Expr}, e.isDesignator = false → e.isDesignator = true →
      ∃ s, e.site F ρ = some s := by
    intro e hfalse htrue
    rw [hfalse] at htrue
    cases htrue
  have hchecked := h
  induction h with
  | int | double | bool | negative => exact ⟨hvalue rfl, _, rfl⟩
  | var => exact ⟨fun _ => ⟨_, rfl⟩, hread hchecked rfl rfl⟩
  | @unary p op e he ht ih =>
    obtain ⟨-, v, hv⟩ := ih hf (fun h => hok (.operand h)) he
    obtain ⟨u, hu, -⟩ := UnaryOp.apply_hasType F ht ((he.typed hΓ hρ).2 v hv)
    refine ⟨hvalue rfl, u, ?_⟩
    rw [evalIn, hv]
    exact hu
  | @binary p op s l r hl hr ht ihl ihr =>
    rw [callFree, Bool.and_eq_true] at hf
    obtain ⟨-, v, hv⟩ := ihl hf.1 (fun h => hok (.left h)) hl
    obtain ⟨-, w, hw⟩ := ihr hf.2 (fun h => hok (.right hv h)) hr
    refine ⟨hvalue rfl, ?_⟩
    rw [evalIn, hv, hw]
    cases happly : op.apply F v w with
    | some u => exact ⟨u, happly⟩
    | none =>
      refine absurd ?_ hok
      rcases BinOp.apply_eq_none ht ((hl.typed hΓ hρ).2 v hv) ((hr.typed hΓ hρ).2 w hw) happly with
        ⟨hop, rfl⟩ | ⟨hop, hd, x, y, hx, hy, hc⟩
      · exact .divisor hop hv hw
      · exact .unordered hop hv hw hd hx hy hc
  | call => cases hf
  | @index p low high t a i ha hd ht hi hit iha ihi =>
    rw [callFree, Bool.and_eq_true] at hf
    obtain ⟨s, hs⟩ := (iha hf.1 (fun h => hok (.array h)) ha).1 hd
    obtain ⟨-, v, hv⟩ := ihi hf.2 (fun h => hok (.position hs h)) hi
    obtain ⟨n, rfl⟩ := ((hi.typed hΓ hρ).2 v hv).of_integer hit
    have hw := ha.type_wellFormed hd
    rw [ht] at hw
    obtain ⟨l, u, hb, -⟩ := hw.bounds
    rw [← ht] at hb
    by_cases hin : l ≤ n.toInt64 ∧ n.toInt64 ≤ u
    · have hsite : (Expr.index p t a i).site F ρ = some (s.inner (n.toInt64 - l).toUInt64) := by
        rw [site, hs, hv]
        show Site.element a.type s n = _
        rw [Site.element, Place.element, hb]
        exact congrArg (Option.map _) (if_pos hin)
      exact ⟨fun _ => ⟨_, hsite⟩, hread hchecked rfl hsite⟩
    · exact absurd (.bounds hs hv hb hin) hok
  | @field p t r n slot fields hr hd ht hfield ih =>
    obtain ⟨s, hs⟩ := (ih hf (fun h => hok (.record h)) hr).1 hd
    have hsite : (Expr.field p t r n slot).site F ρ = some (s.field slot) := by
      rw [site, hs]
      rfl
    exact ⟨fun _ => ⟨_, hsite⟩, hread hchecked rfl hsite⟩

/-! ### Expressions that the checks build -/

/-- What literals and variables of the context are made into by the constructors that apply the type
rules. -/
inductive Built (Γ : Context) : Expr → Prop
  | int {p : Position} {v : UInt64} (hv : v.toNat ≤ 2147483647) : Built Γ (.int p v)
  | double {p : Position} {x : Double} : Built Γ (.double p x)
  | bool {p : Position} {b : Bool} : Built Γ (.bool p b)
  | var {p : Position} {t : Ty} {n : Name} {st : Storage} (hn : Γ.var st n t)
    (ht : t.WellFormed) : Built Γ (.var p t n st)
  | unary {p : Position} {op : UnaryOp} {a e : Expr} (ha : Built Γ a)
    (h : checkUnary op a p = .ok e) : Built Γ e
  | binary {p : Position} {op : BinOp} {l r e : Expr} (hl : Built Γ l) (hr : Built Γ r)
    (h : checkBinary op l r p = .ok e) : Built Γ e
  | index {p : Position} {a i e : Expr} (ha : Built Γ a) (hi : Built Γ i)
    (h : checkIndex a i p = .ok e) : Built Γ e
  | field {p : Position} {r e : Expr} {n : Name} (hr : Built Γ r)
    (h : checkField r n p = .ok e) : Built Γ e

/-- Without calls, only designators have the type of an array or a record. -/
theorem Checked.isDesignator {e : Expr} (h : e.Checked Γ) (hf : e.callFree = true)
    (ht : e.type.scalar? = none) : e.isDesignator = true := by
  cases h with
  | int | double | bool | negative | binary => cases ht
  | @unary _ op a _ haccepts =>
    rcases htype : a.type with s | _ | _ <;> rw [type, htype] at ht <;> rw [htype] at haccepts
    · cases ht
    all_goals cases op <;> cases haccepts
  | call => cases hf
  | var | index | field => rfl

theorem scalar_of_element {a i t : Ty} {p : Position} (h : Typing.element a i p = .ok t) :
    a.scalar? = none := by
  cases a with
  | scalar => cases h
  | array | record => rfl

theorem scalar_of_field {r : Ty} {n : Name} {p : Position} {f : Nat × Ty}
    (h : Typing.field r n p = .ok f) : r.scalar? = none := by
  cases r with
  | scalar => cases h
  | array | record => rfl

/-- What the checks build obeys the rules and calls nothing. -/
theorem Built.checked {e : Expr} (h : e.Built Γ) : e.Checked Γ ∧ e.callFree = true := by
  induction h with
  | int hv => exact ⟨.int hv, rfl⟩
  | double => exact ⟨.double, rfl⟩
  | bool => exact ⟨.bool, rfl⟩
  | var hn ht => exact ⟨.var hn ht, rfl⟩
  | unary _ h ih =>
    refine ⟨checkUnary_checked ih.1 h, ?_⟩
    obtain ⟨t, -, he⟩ := ok_of_bind h
    cases he
    exact ih.2
  | binary _ _ h ihl ihr =>
    refine ⟨checkBinary_checked ihl.1 ihr.1 h, ?_⟩
    obtain ⟨t, -, he⟩ := ok_of_bind h
    cases he
    rw [callFree, ihl.2, ihr.2, Bool.and_self]
  | index _ _ h iha ihi =>
    obtain ⟨t, ht, he⟩ := ok_of_bind h
    have hd := iha.1.isDesignator iha.2 (scalar_of_element ht)
    refine ⟨(checkIndex_checked iha.1 hd ihi.1 h).1, ?_⟩
    cases he
    rw [callFree, iha.2, ihi.2, Bool.and_self]
  | field _ h ih =>
    obtain ⟨f, hf, he⟩ := ok_of_bind h
    have hd := ih.1.isDesignator ih.2 (scalar_of_field hf)
    refine ⟨(checkField_checked ih.1 hd h).1, ?_⟩
    cases he
    exact ih.2

end Expr

/-! ### Code -/

namespace Lowering

/-- The step only appends code and uses up names. Where the code is run it goes through, leaves the
value in the operand that the step returns, and keeps the values of all names that have been given
out before, the memory and the output. -/
def Computes (F : Floats) (P : Ir.Program) (k : Nat) (C : Ir.Config) (g : Generator)
    (m : Step Ir.Operand) (u : Ir.Value) : Prop :=
  ∃ v c ν C', m g = (v, g.emit c ν) ∧ Ir.execAll F P k c C = some C' ∧ C'.value F v = some u ∧
    Keeps g.names C C'

variable {F : Floats} {P : Ir.Program} {k : Nat} {C : Ir.Config} {g : Generator}

theorem Computes.ofAgrees {m : Step Ir.Operand} {v : Ir.Operand} {c : List Ir.Instr} {ν : Names}
    (hm : Emits m g v c ν) {a : Val} {f : Val → Ir.Value}
    (h : Agrees (fun a C' => Leaves F g.names C v ν (f a) C') (Ir.execAll F P k c C) (some a)) :
    Computes F P k C g m (f a) := by
  rcases h with ⟨-, h⟩ | ⟨C', b, hexec, hb, hl⟩
  · cases h
  · cases hb
    exact ⟨v, c, ν, C', hm, hexec, hl.value, hl.keeps⟩

end Lowering

open Lowering (Computes)

/-- Lowering an expression that the checks build computes it: unless evaluation meets an index out
of bounds, a divisor that is zero or doubles that are not ordered, the code for its value leaves
that value, the code for its value in a type leaves the value as that type has it, and if it is a
designator, the code for its place leaves the address of its site. -/
theorem Expr.Built.computes {Γ : Context} {D : Layout} (hΓ : D.Covers Γ) {e : Expr}
    (he : e.Built Γ) {ρ : Stores} (hρ : ρ.Fits D) {F : Floats} (hok : ¬e.Fails F ρ)
    (P : Ir.Program) {k : Nat} {C : Ir.Config} (hC : C.Carries k D ρ) (g : Lowering.Generator) :
    ∃ u, e.evalIn F ρ = some u ∧
      Computes F P k C g (Lowering.value e) u.image ∧
      (∀ t, Computes F P k C g (Lowering.valueIn e t) (u.convert F t).image) ∧
      (e.isDesignator = true → ∃ s, e.site F ρ = some s ∧
        Computes F P k C g (Lowering.place e) (.ptr (s.pointer k))) := by
  obtain ⟨hchecked, hf⟩ := he.checked
  obtain ⟨hsite, u, hu⟩ := hchecked.evaluates hΓ hρ hf hok
  have hlowers := Lowering.lowers_of_checked hchecked
  refine ⟨u, hu, ?_, fun t => ?_, fun hd => ?_⟩
  · obtain ⟨v, c, ν, hcode, hm⟩ := hlowers.emits_value g
    have := hcode.evaluates (F := F) (p := P) hΓ hρ hchecked hf C hC
    rw [hu] at this
    exact .ofAgrees hm this
  · obtain ⟨v, c, ν, hcode, hm⟩ := hlowers.emits_typed g t
    have := hcode.evaluates (F := F) (p := P) hΓ hρ hchecked hf C hC
    rw [hu] at this
    exact .ofAgrees (f := fun a => (a.convert F t).image) hm this
  · obtain ⟨s, hs⟩ := hsite hd
    obtain ⟨slot, c, ν, hcode, hm⟩ := hlowers.emits_place g hd
    rcases hcode.locates (F := F) (p := P) hΓ hρ hchecked hf C hC with
      ⟨-, hnone⟩ | ⟨C', s', hexec, hl, hanswers⟩
    · -- the designator has a site, so its code does not stop
      rw [hs] at hnone
      cases hnone
    · rcases hanswers with ⟨hs', -⟩ | ⟨hs', -⟩
      · obtain rfl := Option.some.inj (hs.symm.trans hs')
        exact ⟨s, hs, slot, c, ν, C', hm, hexec, hl.value, hl.keeps⟩
      · rw [hs] at hs'
        cases hs'

/-- An element of an array of the main program, selected by a variable of a routine. -/
theorem Expr.Built.computes_element :
    let array : Ty := .array (.int ⟨1, 1⟩ 2) (.int ⟨1, 1⟩ 4) .integer
    let e : Expr := .index ⟨2, 2⟩ .integer (.var ⟨2, 1⟩ array ⟨"a"⟩ .global)
      (.var ⟨2, 3⟩ .integer ⟨"a"⟩ .routine)
    let Γ : Context := ⟨fun st n t => n.canonical = "a" ∧
      (st = .global ∧ t = array ∨ st = .routine ∧ t = .integer), fun _ _ _ => False⟩
    let D : Layout := fun st x => if x = "a" then
      some (match st with | .global => .array 3 .i32 | .routine => .i32) else none
    let ρ : Stores := fun st _ => some (match st with
      | .global => .parts [.int 5, .int 6, .int 7]
      | .routine => .int 3)
    let C : Ir.Config := ⟨fun x => some (.ptr ⟨.slot 1 x, []⟩),
      fun r => match r with
        | .global _ => some (.aggregate [.int 5, .int 6, .int 7])
        | .slot .. => some (.int 3), ""⟩
    D.Covers Γ ∧ e.Built Γ ∧ ρ.Fits D ∧ C.Carries 1 D ρ ∧ ∀ F : Floats, ¬e.Fails F ρ ∧
      ∀ P g, ∃ u, e.evalIn F ρ = some u ∧
        Computes F P 1 C g (Lowering.value e) u.image ∧
        (∀ t, Computes F P 1 C g (Lowering.valueIn e t) (u.convert F t).image) ∧
        (e.isDesignator = true → ∃ s, e.site F ρ = some s ∧
          Computes F P 1 C g (Lowering.place e) (.ptr (s.pointer 1))) := by
  intro array e Γ D ρ C
  have hwell : array.WellFormed := by
    rw [Ty.WellFormed]
    exact ⟨⟨2, 4, ⟨1, 1⟩, ⟨1, 1⟩, rfl, rfl, by decide, by decide, by decide⟩, trivial⟩
  have hcountable : array.Countable := ⟨by cbv, 0, by decide, trivial⟩
  have hinteger : Ty.integer.Countable := ⟨rfl, 0, by decide, trivial⟩
  have hΓ : D.Covers Γ := by
    constructor
    · rintro st n t ⟨hn, ⟨rfl, rfl⟩ | ⟨rfl, rfl⟩⟩
      · exact if_pos hn
      · exact if_pos hn
    · rintro st n t ⟨hn, ⟨rfl, rfl⟩ | ⟨rfl, rfl⟩⟩
      · exact hcountable
      · exact hinteger
  have he : e.Built Γ := by
    refine .index (p := ⟨2, 2⟩) (.var ⟨by decide, .inl ⟨rfl, rfl⟩⟩ hwell)
      (.var ⟨by decide, .inr ⟨rfl, rfl⟩⟩ trivial) rfl
  have hρ : ρ.Fits D := by
    intro st x t ht
    obtain ⟨-, ht⟩ := Option.ite_none_right_eq_some.1 ht
    cases st with
    | global =>
      cases ht
      refine ⟨_, rfl, .array rfl ?_⟩
      simp only [List.mem_cons, List.not_mem_nil, or_false]
      rintro v (rfl | rfl | rfl) <;> constructor
    | routine =>
      cases ht
      exact ⟨_, rfl, .int⟩
  have hC : C.Carries 1 D ρ := by
    refine ⟨fun st x t _ => ?_, fun _ _ _ => rfl⟩
    cases st <;> rfl
  refine ⟨hΓ, he, hρ, hC, fun F => ?_⟩
  -- the index is 3, and the bounds are 2 and 4
  have hok : ¬e.Fails F ρ := by
    intro h
    have hindex : (Expr.index ⟨2, 2⟩ .integer (.var ⟨2, 1⟩ array ⟨"a"⟩ .global)
      (.var ⟨2, 3⟩ .integer ⟨"a"⟩ .routine)).Fails F ρ := h
    cases hindex with
    | bounds _ hi hb hout =>
      cases hi
      cases hb
      exact hout (by decide)
    | array h => cases h
    | position _ h => cases h
  exact ⟨hok, fun P g => he.computes hΓ hρ hok P hC g⟩

end MiniPascal
