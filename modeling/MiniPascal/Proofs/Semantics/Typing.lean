import MiniPascal.Proofs.Lowering.Typing
import MiniPascal.Proofs.Semantics.Stores

/-! A store keeps the types of its variables, and an index out of bounds leads to a place of no
type. -/

namespace MiniPascal

open Lowering (machineType machineTypes)

/-! ### Offsets -/

theorem fitsWord_toInt64 (i : Int32) : Grammar.fitsWord i.toInt64 = true := by
  have hle := i.le_toInt
  have hlt := i.toInt_lt
  rw [Grammar.fitsWord_iff, Int32.toInt_toInt64]
  omega

/-- An index counted from the lower bound, as 32 bits hold it. -/
def offset (low : Int64) (i : Int32) : UInt64 := (i.toInt64 - low).toInt32.toInt64.toUInt64

theorem offset_zero (i : Int32) : offset 0 i = i.toInt64.toUInt64 := by
  rw [offset, Int64.toInt32_sub, Int32.toInt32_toInt64, Int64.toInt32_ofNat, Int32.sub_zero]

/-- In an array that is not too long, an index is in bounds if and only if it is counted to less
than the number of elements. -/
theorem offset_cases {low high : Int64} (hl : Grammar.fitsWord low = true)
    (hh : Grammar.fitsWord high = true) (hle : low.toInt ≤ high.toInt)
    (hlong : high.toInt - low.toInt < 2 ^ 31) (i : Int32) :
    (low ≤ i.toInt64 ∧ i.toInt64 ≤ high) ∧ offset low i = (i.toInt64 - low).toUInt64 ∧
      (offset low i).toNat < (high - low + 1).toUInt64.toNat ∨
    ¬(low ≤ i.toInt64 ∧ i.toInt64 ≤ high) ∧
      (high - low + 1).toUInt64.toNat ≤ (offset low i).toNat := by
  have hil := i.le_toInt
  have hih := i.toInt_lt
  have hsub : (i.toInt64 - low).toInt = i.toInt - low.toInt := by
    rw [toInt_sub_word (fitsWord_toInt64 i) hl, Int32.toInt_toInt64]
  have hlength := toInt_length_word hl hh
  have hword : (i.toInt64 - low).toInt32.toInt64.toInt = (i.toInt - low.toInt).bmod (2 ^ 32) := by
    rw [Int32.toInt_toInt64, Int64.toInt_toInt32, hsub]
  have hoffset := toNat_toUInt64 (i.toInt64 - low).toInt32.toInt64
  have hcount := toNat_toUInt64 (high - low + 1)
  have hl := (Grammar.fitsWord_iff low).1 hl
  have hh := (Grammar.fitsWord_iff high).1 hh
  rw [Int64.le_iff_toInt_le, Int64.le_iff_toInt_le, Int32.toInt_toInt64]
  by_cases hb : low.toInt ≤ i.toInt ∧ i.toInt ≤ high.toInt
  · -- the difference is less than 2^31, so 32 bits hold it
    rw [Int.bmod_eq_of_le (by omega) (by omega)] at hword
    refine .inl ⟨hb, ?_, ?_⟩
    · rw [offset]
      congr 1
      apply Int64.toInt_inj.1
      rw [hword, hsub]
    · unfold offset
      split at hoffset <;> split at hcount <;> omega
  · -- the difference is negative in 32 bits, or too large
    refine .inr ⟨hb, ?_⟩
    unfold offset
    rw [Int.bmod_def] at hword
    split at hword <;> split at hoffset <;> split at hcount <;> omega

/-! ### Values of machine types -/

namespace Ir.Ty

/-- The type of an element of an array or a field of a record. -/
def element? : Ir.Ty → UInt64 → Option Ir.Ty
  | .array n t, i => if i.toNat < n.toNat then some t else none
  | .struct ts, i => ts[i.toNat]?
  | _, _ => none

/-- The type of the part that a path leads to. -/
def part? : Ir.Ty → List UInt64 → Option Ir.Ty
  | t, [] => some t
  | t, i :: path => (t.element? i).bind (part? · path)

theorem part?_append (t : Ir.Ty) (path more : List UInt64) :
    t.part? (path ++ more) = (t.part? path).bind (·.part? more) := by
  induction path generalizing t with
  | nil => rfl
  | cons i path ih =>
    rw [List.cons_append, part?, part?, Option.bind_assoc]
    congr 1
    funext u
    exact ih u

end Ir.Ty

namespace Val

/-- Values of machine types. -/
inductive HasType : Val → Ir.Ty → Prop
  | int {n} : HasType (.int n) .i32
  | double {x} : HasType (.double x) .double
  | bool {b} : HasType (.bool b) .i1
  | array {vs n t} (hn : vs.length = n.toNat) (h : ∀ v ∈ vs, HasType v t) :
    HasType (.parts vs) (.array n t)
  | record {vs ts} (hn : vs.length = ts.length)
    (h : ∀ (i : Nat) v t, vs[i]? = some v → ts[i]? = some t → HasType v t) :
    HasType (.parts vs) (.struct ts)

namespace HasType

variable {v w : Val} {vs : List Val} {t u : Ir.Ty} {i : UInt64} {path : List UInt64}

theorem eq_int (h : v.HasType .i32) : ∃ n, v = .int n := by
  cases h
  exact ⟨_, rfl⟩

theorem eq_double (h : v.HasType .double) : ∃ x, v = .double x := by
  cases h
  exact ⟨_, rfl⟩

theorem eq_bool (h : v.HasType .i1) : ∃ b, v = .bool b := by
  cases h
  exact ⟨_, rfl⟩

section

variable {t : Ty} (h : v.HasType (machineType t))
include h

theorem of_integer (ht : t = .integer) : ∃ n, v = .int n := by
  rw [ht, machineType] at h
  exact h.eq_int

theorem of_double (ht : t = .double) : ∃ x, v = .double x := by
  rw [ht, machineType] at h
  exact h.eq_double

theorem of_boolean (ht : t = .boolean) : ∃ b, v = .bool b := by
  rw [ht, machineType] at h
  exact h.eq_bool

end

theorem set_array {n : UInt64} {k : Nat} (h : (parts vs).HasType (.array n t)) (hw : w.HasType t) :
    (parts (vs.set k w)).HasType (.array n t) := by
  cases h with
  | array hn hvs =>
    refine .array (by rw [List.length_set, hn]) fun x hx => ?_
    rcases List.mem_or_eq_of_mem_set hx with hx | rfl
    · exact hvs x hx
    · exact hw

theorem set_record {ts : List Ir.Ty} {k : Nat} (h : (parts vs).HasType (.struct ts))
    (ht : ts[k]? = some t) (hw : w.HasType t) : (parts (vs.set k w)).HasType (.struct ts) := by
  cases h with
  | record hn hvs =>
    refine .record (by rw [List.length_set, hn]) fun j x s hx hs => ?_
    rw [List.getElem?_set] at hx
    split at hx
    · rename_i hkj
      rw [← hkj, ht] at hs
      split at hx
      · cases hx
        cases hs
        exact hw
      · cases hx
    · exact hvs j x s hx hs

/-- An element or a field that the type has is there, and can be replaced. -/
theorem element (h : (parts vs).HasType t) (ht : t.element? i = some u) :
    ∃ v, vs[i.toNat]? = some v ∧ v.HasType u ∧
      ∀ w, w.HasType u → (parts (vs.set i.toNat w)).HasType t := by
  cases t with
  | array n t =>
    cases h with | array hn hvs =>
    rw [Ir.Ty.element?] at ht
    split at ht
    · rename_i hi
      cases ht
      have hi : i.toNat < vs.length := hn ▸ hi
      exact ⟨_, List.getElem?_eq_getElem hi, hvs _ (List.getElem_mem hi),
        fun w hw => set_array (.array hn hvs) hw⟩
    · cases ht
  | struct ts =>
    cases h with | record hn hvs =>
    have hi : i.toNat < vs.length := hn ▸ (List.getElem?_eq_some_iff.1 ht).1
    have hget := List.getElem?_eq_getElem hi
    exact ⟨_, hget, hvs _ _ _ hget ht, fun w hw => set_record (.record hn hvs) ht hw⟩
  | _ => cases ht

/-- An element or a field that the type does not have is not there. -/
theorem element_none (h : (parts vs).HasType t) (ht : t.element? i = none) :
    vs[i.toNat]? = none := by
  apply List.getElem?_eq_none
  cases h with
  | array hn hvs =>
    rw [Ir.Ty.element?] at ht
    split at ht
    · cases ht
    · omega
  | record hn hvs =>
    have := List.getElem?_eq_none_iff.1 ht
    omega

/-- A path that leads to a part of a type leads to a value of that type, which can be replaced. -/
theorem part (h : v.HasType t) (ht : t.part? path = some u) :
    (∃ w, v.part path = some w ∧ w.HasType u) ∧
      ∀ w, w.HasType u → ∃ v', v.replace path w = some v' ∧ v'.HasType t := by
  induction path generalizing v t with
  | nil =>
    cases ht
    exact ⟨⟨v, rfl, h⟩, fun w hw => ⟨w, rfl, hw⟩⟩
  | cons i path ih =>
    obtain ⟨s, hs, ht⟩ := Option.bind_eq_some_iff.1 ht
    cases v with
    | parts vs =>
      obtain ⟨x, hget, hx, hset⟩ := h.element hs
      obtain ⟨⟨w, hw, hwt⟩, hreplace⟩ := ih hx ht
      refine ⟨⟨w, ?_, hwt⟩, fun w hw => ?_⟩
      · rw [Val.part, hget]
        exact hw
      · obtain ⟨x', hx', hxt⟩ := hreplace w hw
        refine ⟨_, ?_, hset x' hxt⟩
        rw [replace, hget]
        simp only [bind, Option.bind, hx', pure]
    | int | double | bool =>
      cases h
      cases hs

/-- A path that leads to no part of a type leads to no part of a value of that type. -/
theorem part_none (h : v.HasType t) (ht : t.part? path = none) (w : Val) :
    v.part path = none ∧ v.replace path w = none := by
  induction path generalizing v t with
  | nil => cases ht
  | cons i path ih =>
    cases v with
    | parts vs =>
      rw [Val.part, replace]
      cases hs : t.element? i with
      | none =>
        rw [h.element_none hs]
        exact ⟨rfl, rfl⟩
      | some s =>
        rw [Ir.Ty.part?, hs] at ht
        obtain ⟨x, hget, hx, -⟩ := h.element hs
        obtain ⟨hpart, hreplace⟩ := ih hx ht
        rw [hget]
        simp only [bind, Option.bind, hpart, hreplace, and_self]
    | int | double | bool => exact ⟨rfl, rfl⟩

end HasType

end Val

/-! ### Stores -/

/-- The machine types of variables, by the canonical forms of their names. -/
abbrev Shapes := String → Option Ir.Ty

namespace Place

/-- The place is a variable or a part of one, of the given type. -/
def Leads (D : Shapes) (q : Place) (t : Ir.Ty) : Prop :=
  ∃ s, D q.name = some s ∧ s.part? q.path = some t

/-- The place lies outside of its variable, and so do all parts of it. -/
def Dangles (D : Shapes) (q : Place) : Prop :=
  ∃ s, D q.name = some s ∧ ∀ more, s.part? (q.path ++ more) = none

variable {D : Shapes} {q : Place} {t u : Ir.Ty} {i : UInt64}

theorem Leads.inner (h : q.Leads D t) (hu : t.element? i = some u) : (q.inner i).Leads D u := by
  obtain ⟨s, hs, ht⟩ := h
  refine ⟨s, hs, ?_⟩
  rw [Place.inner, Ir.Ty.part?_append, ht, Option.bind_some, Ir.Ty.part?, hu]
  rfl

theorem Leads.dangles (h : q.Leads D t) (hu : t.element? i = none) : (q.inner i).Dangles D := by
  obtain ⟨s, hs, ht⟩ := h
  refine ⟨s, hs, fun more => ?_⟩
  rw [Place.inner, List.append_assoc, Ir.Ty.part?_append, ht, Option.bind_some,
    List.singleton_append, Ir.Ty.part?, hu]
  rfl

theorem Dangles.inner (h : q.Dangles D) (i : UInt64) : (q.inner i).Dangles D := by
  obtain ⟨s, hs, ht⟩ := h
  refine ⟨s, hs, fun more => ?_⟩
  rw [Place.inner, List.append_assoc]
  exact ht _

end Place

/-- The variables of a store have values of their machine types. -/
def Store.Fits (D : Shapes) (S : Store) : Prop :=
  ∀ x t, D x = some t → ∃ v, S x = some v ∧ v.HasType t

namespace Store.Fits

variable {D : Shapes} {S : Store} {q : Place} {t : Ir.Ty}

theorem read (h : S.Fits D) (hq : q.Leads D t) : ∃ v, S.read q = some v ∧ v.HasType t := by
  obtain ⟨s, hs, ht⟩ := hq
  obtain ⟨w, hw, hwt⟩ := h _ _ hs
  obtain ⟨v, hv, hvt⟩ := (hwt.part ht).1
  refine ⟨v, ?_, hvt⟩
  rw [Store.read, hw]
  exact hv

theorem write (h : S.Fits D) (hq : q.Leads D t) {v : Val} (hv : v.HasType t) :
    ∃ S', S.write q v = some S' ∧ S'.Fits D := by
  obtain ⟨s, hs, ht⟩ := hq
  obtain ⟨w, hw, hwt⟩ := h _ _ hs
  obtain ⟨w', hw', hwt'⟩ := (hwt.part ht).2 v hv
  refine ⟨Function.update S q.name (some w'), ?_, fun x u hx => ?_⟩
  · rw [Store.write, hw]
    simp only [bind, Option.bind, hw', pure]
  · by_cases hxq : x = q.name
    · rw [hxq] at hx ⊢
      rw [hs] at hx
      cases hx
      exact ⟨w', Function.update_self .., hwt'⟩
    · rw [Function.update_of_ne hxq]
      exact h x u hx

/-- What lies outside of a variable can neither be read nor be written. -/
theorem dangles (h : S.Fits D) (hq : q.Dangles D) (v : Val) :
    S.read q = none ∧ S.write q v = none := by
  obtain ⟨s, hs, ht⟩ := hq
  obtain ⟨w, hw, hwt⟩ := h _ _ hs
  have hnone := ht []
  rw [List.append_nil] at hnone
  obtain ⟨hpart, hreplace⟩ := hwt.part_none hnone v
  rw [Store.read, Store.write, hw]
  simp only [bind, Option.bind, hpart, hreplace, and_self]

end Store.Fits

/-! ### Operators -/

theorem Val.convert_int (F : Floats) {t : Ty} (ht : t = .double) (n : Int32) :
    (Val.int n).convert F t = .double (F.ofInt n.toInt) := by
  subst ht
  rfl

/-- A value that is stored without a conversion stays as it is. -/
theorem Val.convert_same {F : Floats} {t u : Ty} {v : Val} (hv : v.HasType (machineType u))
    (h : (Lowering.isDouble t && u.isInteger) = false) : v.convert F t = v := by
  cases v with
  | int n =>
    have hu : u = .integer := by
      rcases u with (_ | _ | _) | _ | _ <;> rw [machineType] at hv <;> cases hv
    rw [hu, Ty.isInteger, Bool.and_true, Lowering.isDouble, decide_eq_false_iff_not] at h
    exact if_neg h
  | double | bool | parts => rfl

namespace UnaryOp

/-- An operator that accepts a type makes a value of that type of every value of it. -/
theorem apply_hasType (F : Floats) {op : UnaryOp} {t : Ty} {v : Val} (h : op.accepts t = true)
    (hv : v.HasType (machineType t)) :
    ∃ u, op.apply F v = some u ∧ u.HasType (machineType t) := by
  rcases t with (_ | _ | _) | _ | _ <;> cases op <;> cases h <;> rw [machineType] at hv ⊢ <;>
    cases hv
  all_goals exact ⟨_, rfl, by constructor⟩

theorem eq_of_apply_plus {F : Floats} {u v : Val} (h : UnaryOp.plus.apply F v = some u) :
    u = v := by
  cases v <;> cases h <;> rfl

end UnaryOp

namespace BinOp

variable {op : BinOp} {u : Val}

theorem onInts_hasType {m n : Int32} (h : op.onInts m n = some u) :
    u.HasType (if op.isRelational then .i1 else .i32) := by
  cases op <;> simp [onInts, demand?, isRelational] at h ⊢
  all_goals
    first
      | subst h
      | obtain ⟨-, rfl⟩ := h
    constructor

theorem onDoubles_hasType {F : Floats} {x y : Double} (h : op.onDoubles F x y = some u) :
    u.HasType (if op.isRelational then .i1 else .double) := by
  cases op <;> simp [onDoubles, demand?, isRelational, Option.bind_eq_some_iff] at h ⊢
  all_goals
    first
      | subst h
      | obtain ⟨o, -, rfl⟩ := h
    constructor

theorem onBools_hasType {a b : Bool} (h : op.onBools a b = some u) : u.HasType .i1 := by
  cases op <;> simp [onBools, demand?] at h
  all_goals
    subst h
    constructor

/-- The result of an operator has the type that the rules give it. -/
theorem apply_hasType {F : Floats} {l r : Ty} {s : Scalar} {v w : Val}
    (ht : op.result? l r = some s) (hv : v.HasType (machineType l))
    (hw : w.HasType (machineType r)) (h : op.apply F v w = some u) :
    u.HasType (machineType (.scalar s)) := by
  obtain ⟨⟨a, rfl⟩, b, rfl⟩ := Lowering.scalars_of_result ht
  cases a <;> cases b <;> simp only [machineType] at hv hw <;> cases hv <;> cases hw <;>
    simp only [apply] at h
  case integer.integer =>
    split at h
    · rename_i hop
      subst hop
      cases ht
      exact onDoubles_hasType h
    · have := onInts_hasType h
      cases op <;> cases ht <;> first | exact this | contradiction
  case boolean.boolean =>
    have := onBools_hasType h
    cases op <;> cases ht <;> exact this
  case integer.boolean | double.boolean | boolean.integer | boolean.double => cases h
  all_goals
    have := onDoubles_hasType h
    cases op <;> cases ht <;> exact this

/-- Both operands are evaluated in one type, and the operator works on the values that they have
there. -/
theorem apply_convert (F : Floats) {l r : Ty} {s t : Scalar} {v w : Val}
    (h : op.result? l r = some s)
    (ht : Lowering.operandType op l r (.scalar s) = .scalar t) (hv : v.HasType (machineType l))
    (hw : w.HasType (machineType r)) :
    match t with
    | .integer => ∃ m n, v = .int m ∧ w = .int n ∧ op.apply F v w = op.onInts m n
    | .double => ∃ x y, v.convert F .double = .double x ∧ w.convert F .double = .double y ∧
      op.apply F v w = op.onDoubles F x y
    | .boolean => ∃ a b, v = .bool a ∧ w = .bool b ∧ op.apply F v w = op.onBools a b := by
  obtain ⟨⟨a, rfl⟩, b, rfl⟩ := Lowering.scalars_of_result h
  cases op <;> cases a <;> cases b <;> cases h <;> cases ht <;>
    simp only [machineType] at hv hw <;> cases hv <;> cases hw
  all_goals exact ⟨_, _, rfl, rfl, rfl⟩

end BinOp

/-! ### Expressions -/

theorem Ty.isIndexable_of_mem {fields : List (Name × Ty)} (h : Ty.allIndexable fields = true) :
    ∀ f ∈ fields, f.2.isIndexable = true := by
  induction fields with
  | nil => exact List.forall_mem_nil _
  | cons f fields ih =>
    rw [Ty.allIndexable, Bool.and_eq_true] at h
    exact List.forall_mem_cons.2 ⟨h.1, ih h.2⟩

/-- A type whose parts 64 bits can number and 32 bits can index. -/
structure Ty.Countable (t : Ty) : Prop where
  indexable : t.isIndexable = true
  narrow : ∃ N, N < 2 ^ 64 ∧ t.Narrow N

namespace Ty.Countable

theorem element {low high : Expr} {t : Ty} (h : (Ty.array low high t).Countable) :
    t.Countable := by
  obtain ⟨hi, N, hN, hn⟩ := h
  rw [Ty.isIndexable, Bool.and_eq_true] at hi
  rw [Ty.Narrow] at hn
  exact ⟨hi.2, N, hN, hn⟩

theorem field {fields : List (Name × Ty)} (h : (Ty.record fields).Countable) {n : Name}
    {slot : Nat} {t : Ty} (hf : Ty.findField n fields = some (slot, t)) :
    slot < 2 ^ 64 ∧ t.Countable := by
  obtain ⟨hi, N, hN, hn⟩ := h
  rw [Ty.isIndexable] at hi
  rw [Ty.Narrow] at hn
  obtain ⟨hslot, m, hm⟩ := Ty.findField_mem hf
  exact ⟨by omega, Ty.isIndexable_of_mem hi _ hm, N, hN, hn.2.mem _ hm⟩

end Ty.Countable

/-- The machine types of the variables of each storage. -/
abbrev Layout := Storage → Shapes

/-- The variables of the context have these machine types, and their parts can be counted. -/
structure Layout.Covers (D : Layout) (Γ : Context) : Prop where
  shape : ∀ st n t, Γ.var st n t → D st n.canonical = some (machineType t)
  countable : ∀ st n t, Γ.var st n t → t.Countable

/-- The variables of both storages have values of their machine types. -/
def Stores.Fits (D : Layout) (ρ : Stores) : Prop := ∀ st, (ρ st).Fits (D st)

namespace Site

/-- The site is a variable or a part of one, of the given type. -/
def Leads (D : Layout) (s : Site) (t : Ir.Ty) : Prop := s.place.Leads (D s.storage) t

/-- The site lies outside of its variable, and so do all parts of it. -/
def Dangles (D : Layout) (s : Site) : Prop := s.place.Dangles (D s.storage)

end Site

/-- What the machine counts an index to leads to an element if the index is in bounds, and else
outside of the array. -/
theorem Site.element_cases {D : Layout} {a : Ty} {low high : Expr} {t : Ty}
    (ha : a = .array low high t) (hw : a.WellFormed) (hs : a.Countable) {s : Site}
    (hq : s.Leads D (machineType a)) (i : Int32) :
    let s' := s.inner (offset (Lowering.lowBound a) i)
    Site.element a s i = some s' ∧ s'.Leads D (machineType t) ∨
      Site.element a s i = none ∧ s'.Dangles D := by
  subst ha
  obtain ⟨l, h, hb, hl, hh, hle⟩ := hw.bounds
  have hlow : Lowering.lowBound (.array low high t) = l := by
    rw [Lowering.lowBound, hb]
    rfl
  have hlength : (Ty.array low high t).length?.getD 0 = (h - l + 1).toUInt64 := by
    rw [Ty.length?, hb]
    rfl
  have hs := hs.indexable
  rw [Ty.isIndexable, hb, Option.all_some, Bool.and_eq_true, decide_eq_true_eq] at hs
  rw [machineType, hlength] at hq
  rw [hlow, Site.element, Place.element, hb]
  rcases offset_cases hl hh hle hs.1 i with ⟨hi, ho, hlt⟩ | ⟨hi, hge⟩
  · refine .inl ⟨?_, Place.Leads.inner hq (if_pos hlt)⟩
    rw [ho]
    exact congrArg (Option.map _) (if_pos hi)
  · exact .inr ⟨congrArg (Option.map _) (if_neg hi), Place.Leads.dangles hq (if_neg (by omega))⟩

namespace Expr

variable {Γ : Context} {F : Floats}

theorem Checked.countable {D : Layout} (hΓ : D.Covers Γ) {e : Expr} (h : e.Checked Γ)
    (hd : e.isDesignator = true) : e.type.Countable := by
  induction h with
  | int | double | bool | negative | unary | binary | call => cases hd
  | var hn _ => exact hΓ.countable _ _ _ hn
  | index _ ha ht _ _ ih =>
    have := ih ha
    rw [ht] at this
    exact this.element
  | field _ hr ht hf ih =>
    have := ih hr
    rw [ht] at this
    exact (this.field hf).2

/-- The site of a designator and the value of an expression are of its type. -/
theorem Checked.typed {D : Layout} (hΓ : D.Covers Γ) {ρ : Stores} (hρ : ρ.Fits D) {e : Expr}
    (h : e.Checked Γ) :
    (∀ s, e.site F ρ = some s → s.Leads D (machineType e.type)) ∧
      ∀ v, e.evalIn F ρ = some v → v.HasType (machineType e.type) := by
  -- a designator's value is what its site holds
  have hread : ∀ {e : Expr}, e.isDesignator = true →
      (∀ s, e.site F ρ = some s → s.Leads D (machineType e.type)) →
      ∀ v, e.evalIn F ρ = some v → v.HasType (machineType e.type) := by
    intro e hd hsite v hv
    rw [evalIn_designator hd] at hv
    obtain ⟨s, hs, hv⟩ := Option.bind_eq_some_iff.1 hv
    obtain ⟨v', hv', ht⟩ := (hρ s.storage).read (hsite s hs)
    rw [Stores.read, hv'] at hv
    cases hv
    exact ht
  have hvalue : ∀ {e : Expr} {t : Ir.Ty}, e.site F ρ = none →
      ∀ s, e.site F ρ = some s → s.Leads D t := by
    intro e t hnone s hs
    rw [hnone] at hs
    cases hs
  induction h with
  | int | double | bool | negative =>
    refine ⟨hvalue rfl, fun v hv => ?_⟩
    rw [evalIn] at hv
    cases hv
    constructor
  | @var p t n st hn ht =>
    have hsite : ∀ s, (Expr.var p t n st).site F ρ = some s → s.Leads D (machineType t) := by
      intro s hs
      rw [site] at hs
      cases hs
      exact ⟨_, hΓ.shape _ _ _ hn, rfl⟩
    exact ⟨hsite, hread rfl hsite⟩
  | @unary p op e he ht ih =>
    refine ⟨hvalue rfl, fun v hv => ?_⟩
    rw [evalIn] at hv
    obtain ⟨w, hw, hv⟩ := Option.bind_eq_some_iff.1 hv
    obtain ⟨u, hu, hut⟩ := UnaryOp.apply_hasType F ht (ih.2 w hw)
    rw [hu] at hv
    cases hv
    exact hut
  | binary _ _ ht ihl ihr =>
    refine ⟨hvalue rfl, fun v hv => ?_⟩
    rw [evalIn] at hv
    obtain ⟨w, hw, hv⟩ := Option.bind_eq_some_iff.1 hv
    obtain ⟨w', hw', hv⟩ := Option.bind_eq_some_iff.1 hv
    exact BinOp.apply_hasType ht (ihl.2 w hw) (ihr.2 w' hw') hv
  | call =>
    refine ⟨hvalue rfl, fun v hv => ?_⟩
    rw [evalIn] at hv
    cases hv
  | @index p low high t a i ha hd ht _ _ iha _ =>
    have hsite : ∀ s, (Expr.index p t a i).site F ρ = some s → s.Leads D (machineType t) := by
      intro s hs
      rw [site] at hs
      obtain ⟨sa, hsa, hs⟩ := Option.bind_eq_some_iff.1 hs
      obtain ⟨v, -, hs⟩ := Option.bind_eq_some_iff.1 hs
      obtain ⟨n, -, hs⟩ := Option.bind_eq_some_iff.1 hs
      rcases Site.element_cases ht (ha.type_wellFormed hd) (ha.countable hΓ hd) (iha.1 sa hsa) n
        with ⟨he, hl⟩ | ⟨he, -⟩
      · rw [he] at hs
        cases hs
        exact hl
      · rw [he] at hs
        cases hs
    exact ⟨hsite, hread rfl hsite⟩
  | @field p t r n slot fields hr hd ht hf ih =>
    have hsite : ∀ s, (Expr.field p t r n slot).site F ρ = some s →
        s.Leads D (machineType t) := by
      intro s hs
      rw [site] at hs
      obtain ⟨sr, hsr, hs⟩ := Option.bind_eq_some_iff.1 hs
      cases hs
      have hleads := ih.1 sr hsr
      have hcount := hr.countable hΓ hd
      rw [ht] at hleads hcount
      rw [machineType] at hleads
      refine Place.Leads.inner hleads ?_
      rw [Ir.Ty.element?, UInt64.toNat_ofNat_of_lt' (hcount.field hf).1]
      exact Lowering.machineTypes_findField hf
    exact ⟨hsite, hread rfl hsite⟩

end Expr

/-! ### Programs without routines -/

/-- All variables of the context are global, of these machine types, and their parts can be
counted. -/
structure Shapes.Covers (D : Shapes) (Γ : Context) : Prop where
  global : ∀ st n t, Γ.var st n t → st = .global
  shape : ∀ st n t, Γ.var st n t → D n.canonical = some (machineType t)
  countable : ∀ st n t, Γ.var st n t → t.Countable

/-- The machine types where only the main program has variables. -/
def Layout.ofMain (D : Shapes) : Layout
  | .global => D
  | .routine => fun _ => none

theorem Shapes.Covers.layout {D : Shapes} {Γ : Context} (h : D.Covers Γ) :
    (Layout.ofMain D).Covers Γ := by
  refine ⟨fun st n t hn => ?_, h.countable⟩
  obtain rfl := h.global _ _ _ hn
  exact h.shape _ _ _ hn

theorem Store.Fits.stores {D : Shapes} {S : Store} (h : S.Fits D) :
    Stores.Fits (.ofMain D) fun _ => S := by
  intro st
  cases st with
  | global => exact h
  | routine => exact fun _ _ ht => by cases ht

theorem Site.Leads.ofMain {D : Shapes} {s : Site} {t : Ir.Ty} (h : s.Leads (.ofMain D) t) :
    s.storage = .global ∧ s.place.Leads D t := by
  obtain ⟨st, q⟩ := s
  cases st with
  | global => exact ⟨rfl, h⟩
  | routine =>
    obtain ⟨_, hs, -⟩ := h
    cases hs

namespace Expr

variable {Γ : Context} {D : Shapes} {F : Floats} {S : Store}

/-- The place of a designator and the value of an expression are of its type. -/
theorem Checked.meaning (hΓ : D.Covers Γ) (hS : S.Fits D) {e : Expr} (h : e.Checked Γ) :
    (∀ q, e.place F S = some q → q.Leads D (machineType e.type)) ∧
      ∀ v, e.eval F S = some v → v.HasType (machineType e.type) := by
  obtain ⟨hsite, hvalue⟩ := h.typed (F := F) hΓ.layout hS.stores
  obtain ⟨hplace, heval⟩ := site_and_evalIn_const F S e
  constructor
  · intro q hq
    rw [← hplace] at hq
    obtain ⟨s, hs, rfl⟩ := Option.map_eq_some_iff.1 hq
    exact (hsite s hs).ofMain.2
  · rw [← heval]
    exact hvalue

namespace Checked

variable {e : Expr} (h : e.Checked Γ) (hΓ : D.Covers Γ) (hS : S.Fits D) {v : Val}
include h hΓ hS

theorem eval_int (ht : e.type = .integer) (hv : e.eval F S = some v) : ∃ n, v = .int n :=
  ((h.meaning hΓ hS).2 v hv).of_integer ht

theorem eval_double (ht : e.type = .double) (hv : e.eval F S = some v) : ∃ x, v = .double x :=
  ((h.meaning hΓ hS).2 v hv).of_double ht

theorem eval_bool (ht : e.type = .boolean) (hv : e.eval F S = some v) : ∃ b, v = .bool b :=
  ((h.meaning hΓ hS).2 v hv).of_boolean ht

end Checked

end Expr

end MiniPascal
