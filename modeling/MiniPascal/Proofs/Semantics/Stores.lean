import MiniPascal.Proofs.Semantics.Source

/-! An expression in a routine has its value in two stores, one for each storage. -/

namespace MiniPascal

/-- The values of the variables of each storage. -/
abbrev Stores := Storage → Store

/-- A variable of one of the storages, or a part of it. -/
structure Site where
  storage : Storage
  place : Place

namespace Site

/-- A part of what lies at a site. -/
def inner (s : Site) (i : UInt64) : Site := ⟨s.storage, s.place.inner i⟩

/-- The site of an element of an array, whose index must be in bounds. -/
def element (array : Ty) (s : Site) (i : Int32) : Option Site :=
  (Place.element array s.place i).map (⟨s.storage, ·⟩)

/-- The site of a field of a record. -/
def field (s : Site) (slot : Nat) : Site := ⟨s.storage, s.place.field slot⟩

end Site

/-- What a site holds. -/
def Stores.read (ρ : Stores) (s : Site) : Option Val := (ρ s.storage).read s.place

namespace Expr

variable (F : Floats) (ρ : Stores)

mutual

/-- The site that a designator names. -/
def site : Expr → Option Site
  | .var _ _ n st => some ⟨st, n.canonical, []⟩
  | .index _ _ a i => do Site.element a.type (← a.site) (← (← i.evalIn).int?)
  | .field _ _ r _ slot => do return (← r.site).field slot
  | _ => none

/-- The value of an expression; operands are evaluated from left to right. -/
def evalIn : Expr → Option Val
  | .int _ v => some (.int (Int32.ofNat v.toNat))
  | .double _ x => some (.double x)
  | .bool _ b => some (.bool b)
  | .var _ _ n st => ρ.read ⟨st, n.canonical, []⟩
  | .unary _ _ op e => do op.apply F (← e.evalIn)
  | .binary _ _ op l r => do op.apply F (← l.evalIn) (← r.evalIn)
  | .call .. => none
  | .index _ _ a i => do ρ.read (← Site.element a.type (← a.site) (← (← i.evalIn).int?))
  | .field _ _ r _ slot => do ρ.read ((← r.site).field slot)

end

section

variable {F ρ} {S : Store} {e : Expr}

theorem evalIn_designator (h : e.isDesignator = true) :
    e.evalIn F ρ = (e.site F ρ).bind ρ.read := by
  cases e with
  | var => rfl
  | index =>
    rw [evalIn, site]
    simp only [bind, Option.bind_assoc]
  | field =>
    rw [evalIn, site]
    simp only [bind, Option.bind_assoc]
    rfl
  | _ => cases h

theorem eval_designator (h : e.isDesignator = true) :
    e.eval F S = (e.place F S).bind S.read := by
  cases e with
  | var => rfl
  | index =>
    rw [eval, place]
    simp only [bind, Option.bind_assoc]
  | field =>
    rw [eval, place]
    simp only [bind, Option.bind_assoc]
    rfl
  | _ => cases h

/-! ### One store -/

theorem map_place_element (array : Ty) (s : Site) (n : Int32) :
    (Site.element array s n).map Site.place = Place.element array s.place n := by
  rw [Site.element]
  cases Place.element array s.place n <;> rfl

theorem evalIn_eq_eval (hd : e.isDesignator = true)
    (h : (e.site F fun _ => S).map Site.place = e.place F S) :
    (e.evalIn F fun _ => S) = e.eval F S := by
  rw [evalIn_designator hd, eval_designator hd, ← h, Option.bind_map]
  rfl

end

/-- Where both storages have the same store, an expression has its value in that store. -/
theorem site_and_evalIn_const (S : Store) : (e : Expr) →
    (e.site F fun _ => S).map Site.place = e.place F S ∧ (e.evalIn F fun _ => S) = e.eval F S
  | .int .. | .double .. | .bool .. | .var .. | .call .. => ⟨rfl, rfl⟩
  | .unary p t op e => by
    refine ⟨rfl, ?_⟩
    rw [evalIn, eval, (site_and_evalIn_const S e).2]
  | .binary p t op l r => by
    refine ⟨rfl, ?_⟩
    rw [evalIn, eval, (site_and_evalIn_const S l).2, (site_and_evalIn_const S r).2]
  | .index p t a i => by
    have hsite : ((index p t a i).site F fun _ => S).map Site.place =
        (index p t a i).place F S := by
      rw [site, place, ← (site_and_evalIn_const S a).1, (site_and_evalIn_const S i).2]
      simp only [bind, Option.map_bind, Option.bind_map, Function.comp_def, map_place_element]
    exact ⟨hsite, evalIn_eq_eval rfl hsite⟩
  | .field p t r n slot => by
    have hsite : ((field p t r n slot).site F fun _ => S).map Site.place =
        (field p t r n slot).place F S := by
      rw [site, place, ← (site_and_evalIn_const S r).1]
      cases r.site F fun _ => S <;> rfl
    exact ⟨hsite, evalIn_eq_eval rfl hsite⟩
termination_by structural e => e

/-! ### Faults -/

/-- Evaluating the expression meets an index out of bounds, a divisor that is zero, or doubles that
are compared and not ordered. -/
inductive Fails : Expr → Prop
  | bounds {p : Position} {t : Ty} {a i : Expr} {s : Site} {n : Int32} {low high : Int64}
    (ha : a.site F ρ = some s) (hi : i.evalIn F ρ = some (.int n))
    (hb : a.type.bounds = some (low, high)) (h : ¬(low ≤ n.toInt64 ∧ n.toInt64 ≤ high)) :
    Fails (.index p t a i)
  | divisor {p : Position} {t : Ty} {op : BinOp} {l r : Expr} {v : Val}
    (hop : op = .div ∨ op = .mod) (hl : l.evalIn F ρ = some v)
    (hr : r.evalIn F ρ = some (.int 0)) : Fails (.binary p t op l r)
  | unordered {p : Position} {t : Ty} {op : BinOp} {l r : Expr} {v w : Val} {x y : Double}
    (hop : op.isRelational = true) (hl : l.evalIn F ρ = some v) (hr : r.evalIn F ρ = some w)
    (ht : l.type = .double ∨ r.type = .double) (hx : v.convert F .double = .double x)
    (hy : w.convert F .double = .double y) (h : F.compare x y = none) :
    Fails (.binary p t op l r)
  | operand {p : Position} {t : Ty} {op : UnaryOp} {e : Expr} (h : Fails e) :
    Fails (.unary p t op e)
  | left {p : Position} {t : Ty} {op : BinOp} {l r : Expr} (h : Fails l) :
    Fails (.binary p t op l r)
  | right {p : Position} {t : Ty} {op : BinOp} {l r : Expr} {v : Val}
    (hl : l.evalIn F ρ = some v) (h : Fails r) : Fails (.binary p t op l r)
  | array {p : Position} {t : Ty} {a i : Expr} (h : Fails a) : Fails (.index p t a i)
  | position {p : Position} {t : Ty} {a i : Expr} {s : Site} (ha : a.site F ρ = some s)
    (h : Fails i) : Fails (.index p t a i)
  | record {p : Position} {t : Ty} {r : Expr} {n : Name} {slot : Nat} (h : Fails r) :
    Fails (.field p t r n slot)

end Expr

end MiniPascal
