import MiniPascal.Proofs.Checked.Regular

/-! The types and the expressions that a program is made of. -/

namespace MiniPascal

/-- A type or an expression. -/
inductive Part where
  | type (t : Ty)
  | expr (e : Expr)

mutual

/-- The type and what it is made of. -/
def Ty.parts : Ty → List Part
  | .scalar s => [.type (.scalar s)]
  | .array low high element =>
    .type (.array low high element) :: low.parts ++ high.parts ++ element.parts
  | .record fields => .type (.record fields) :: Ty.partsOfFields fields

/-- What some fields are made of. -/
def Ty.partsOfFields : List (Name × Ty) → List Part
  | [] => []
  | (_, t) :: fields => t.parts ++ Ty.partsOfFields fields

/-- What some types are made of. -/
def Ty.partsOfAll : List Ty → List Part
  | [] => []
  | t :: ts => t.parts ++ Ty.partsOfAll ts

/-- The expression and what it is made of, types included. -/
def Expr.parts : Expr → List Part
  | .int p v => [.expr (.int p v)]
  | .double p x => [.expr (.double p x)]
  | .bool p b => [.expr (.bool p b)]
  | .var p t n st => .expr (.var p t n st) :: t.parts
  | .unary p t op e => .expr (.unary p t op e) :: t.parts ++ e.parts
  | .binary p t op l r => .expr (.binary p t op l r) :: t.parts ++ l.parts ++ r.parts
  | .call p t n symbol args params =>
    .expr (.call p t n symbol args params) :: t.parts ++ Expr.partsOfAll args ++
      Ty.partsOfAll params
  | .index p t a i => .expr (.index p t a i) :: t.parts ++ a.parts ++ i.parts
  | .field p t r n slot => .expr (.field p t r n slot) :: t.parts ++ r.parts

/-- What some expressions are made of. -/
def Expr.partsOfAll : List Expr → List Part
  | [] => []
  | e :: es => e.parts ++ Expr.partsOfAll es

end

/-- What something written is made of. -/
def WriteArg.parts : WriteArg → List Part
  | .value e => e.parts
  | .text _ => []

mutual

/-- What a statement is made of. -/
def Stmt.parts : Stmt → List Part
  | .block ss => Stmt.partsOfAll ss
  | .ifElse c yes none => c.parts ++ yes.parts
  | .ifElse c yes (some no) => c.parts ++ yes.parts ++ no.parts
  | .forTo _ target first bound body =>
    target.parts ++ first.parts ++ bound.parts ++ body.parts
  | .while c body => c.parts ++ body.parts
  | .repeatUntil body c => body.parts ++ c.parts
  | .assign target e => target.parts ++ e.parts
  | .call _ _ args params returns =>
    Expr.partsOfAll args ++ Ty.partsOfAll params ++ Ty.partsOfAll returns.toList
  | .write _ args => args.flatMap WriteArg.parts
  | .transition .. => []

/-- What some statements are made of. -/
def Stmt.partsOfAll : List Stmt → List Part
  | [] => []
  | s :: ss => s.parts ++ Stmt.partsOfAll ss

end

mutual

/-- What a routine is made of: its parameters, its result, its declarations and its statements. -/
def Routine.parts : Routine → List Part
  | ⟨_, _, ⟨params⟩, returns, none, _⟩ => partsOfEntries params ++ Ty.partsOfAll returns.toList
  | ⟨_, _, ⟨params⟩, returns, some ⟨⟨entries⟩, ss⟩, _⟩ =>
    partsOfEntries params ++ Ty.partsOfAll returns.toList ++ partsOfEntries entries ++
      Stmt.partsOfAll ss

/-- What some declarations are made of. -/
def partsOfEntries : List (Name × Declaration) → List Part
  | [] => []
  | (_, d) :: entries => d.parts ++ partsOfEntries entries

/-- What a declaration is made of. -/
def Declaration.parts : Declaration → List Part
  | .var _ t | .type _ t => t.parts
  | .const _ value => value.parts
  | .routine r => r.parts

end

/-- All types and expressions of a program. -/
def Program.parts (p : Program) : List Part :=
  partsOfEntries p.scope.entries ++ Stmt.partsOfAll p.statements

/-! ### Regular parts -/

/-- A regular type, or an expression that selects the field of its name in its record's type if it
selects a field. -/
def Part.Regular (N : Nat) : Part → Prop
  | .type t => t.Regular N
  | .expr (.field _ t r n slot) => ∃ fields m, r.type = .record fields ∧
    fields[slot]? = some (m, t) ∧ m.canonical = n.canonical
  | .expr _ => True

variable {N : Nat}

theorem Expr.ofConstant_parts (c : Constant) (p : Position) :
    ∀ x ∈ (ofConstant c p).parts, x.Regular N := by
  cases c with
  | int n =>
    rw [ofConstant]
    split
    · refine List.forall_mem_cons.2 ⟨trivial, List.forall_mem_cons.2 ⟨?_, ?_⟩⟩
      · exact Ty.scalar_regular _
      · exact List.forall_mem_singleton.2 trivial
    · exact List.forall_mem_singleton.2 trivial
  | double | bool => exact List.forall_mem_singleton.2 trivial

namespace Ty

mutual

theorem Regular.parts : {t : Ty} → t.Regular N → ∀ x ∈ t.parts, x.Regular N
  | .scalar s, h => by
    rw [Ty.parts]
    exact List.forall_mem_singleton.2 h
  | .array low high element, h => by
    have hbounds := h.wellFormed
    rw [WellFormed] at hbounds
    obtain ⟨⟨l, k, p, q, rfl, rfl, -⟩, -⟩ := hbounds
    rw [Ty.parts]
    refine List.forall_mem_append.2 ⟨List.forall_mem_append.2 ⟨?_, ?_⟩, h.element.parts⟩
    · exact List.forall_mem_cons.2 ⟨h, Expr.ofConstant_parts _ p⟩
    · exact Expr.ofConstant_parts _ q
  | .record fields, h => by
    rw [Ty.parts]
    exact List.forall_mem_cons.2 ⟨h, partsOfFields_regular h.fields⟩

theorem partsOfFields_regular : {fields : List (Name × Ty)} → (∀ f ∈ fields, f.2.Regular N) →
    ∀ x ∈ partsOfFields fields, x.Regular N
  | [], _ => List.forall_mem_nil _
  | (_, t) :: fields, h => by
    obtain ⟨ht, hfields⟩ := List.forall_mem_cons.1 h
    rw [partsOfFields]
    exact List.forall_mem_append.2 ⟨ht.parts, partsOfFields_regular hfields⟩

end

theorem partsOfAll_regular {ts : List Ty} (h : ∀ t ∈ ts, t.Regular N) :
    ∀ x ∈ partsOfAll ts, x.Regular N := by
  induction ts with
  | nil => exact List.forall_mem_nil _
  | cons t ts ih =>
    obtain ⟨ht, hts⟩ := List.forall_mem_cons.1 h
    exact List.forall_mem_append.2 ⟨ht.parts, ih hts⟩

end Ty

section

variable {Γ : Context} (hΓ : Γ.Regular N)
include hΓ

namespace Expr

omit hΓ in
theorem partsOfAll_regular {es : List Expr} (h : ∀ e ∈ es, ∀ x ∈ e.parts, x.Regular N) :
    ∀ x ∈ partsOfAll es, x.Regular N := by
  induction es with
  | nil => exact List.forall_mem_nil _
  | cons e es ih =>
    obtain ⟨he, hes⟩ := List.forall_mem_cons.1 h
    exact List.forall_mem_append.2 ⟨he, ih hes⟩

/-- Expressions that obey the rules are made of regular parts. -/
theorem Checked.parts {e : Expr} (h : e.Checked Γ) : ∀ x ∈ e.parts, x.Regular N := by
  induction h with
  | int | double | bool => exact List.forall_mem_singleton.2 trivial
  | negative =>
    refine List.forall_mem_cons.2 ⟨trivial, List.forall_mem_cons.2 ⟨?_, ?_⟩⟩
    · exact Ty.scalar_regular _
    · exact List.forall_mem_singleton.2 trivial
  | var hn =>
    rw [Expr.parts]
    exact List.forall_mem_cons.2 ⟨trivial, (hΓ.var _ _ _ hn).parts⟩
  | unary he _ ih =>
    rw [Expr.parts]
    refine List.forall_mem_append.2 ⟨List.forall_mem_cons.2 ⟨trivial, ?_⟩, ih⟩
    exact (he.type_regular hΓ).parts
  | binary _ _ _ ihl ihr =>
    rw [Expr.parts]
    refine List.forall_mem_append.2 ⟨List.forall_mem_append.2 ⟨?_, ihl⟩, ihr⟩
    exact List.forall_mem_cons.2 ⟨trivial, (Ty.scalar_regular _).parts⟩
  | call hs _ _ ih =>
    rw [Expr.parts]
    refine List.forall_mem_append.2 ⟨List.forall_mem_append.2 ⟨?_, ?_⟩, ?_⟩
    · exact List.forall_mem_cons.2 ⟨trivial, (hΓ.returns _ _ _ hs _ rfl).parts⟩
    · exact partsOfAll_regular ih
    · exact Ty.partsOfAll_regular (hΓ.params _ _ _ hs)
  | index ha _ ht _ _ iha ihi =>
    -- the element is part of the type of the array, and the array has its own parts
    have htype := ha.type_regular hΓ
    rw [ht] at htype
    rw [Expr.parts]
    refine List.forall_mem_append.2 ⟨List.forall_mem_append.2 ⟨?_, iha⟩, ihi⟩
    exact List.forall_mem_cons.2 ⟨trivial, htype.element.parts⟩
  | field hr _ ht hf ih =>
    have htype := hr.type_regular hΓ
    rw [ht] at htype
    -- the slot is that of the field in the record, and its type is part of the record
    obtain ⟨m, hget, hm⟩ := Ty.findField_getElem hf
    rw [Expr.parts]
    refine List.forall_mem_append.2 ⟨List.forall_mem_cons.2 ⟨?_, ?_⟩, ih⟩
    · exact ⟨_, m, ht, hget, hm⟩
    · exact (htype.fields _ (List.mem_of_getElem? hget)).parts

end Expr

namespace Stmt

omit hΓ in
theorem partsOfAll_regular {ss : List Stmt} (h : ∀ st ∈ ss, ∀ x ∈ st.parts, x.Regular N) :
    ∀ x ∈ partsOfAll ss, x.Regular N := by
  induction ss with
  | nil =>
    rw [partsOfAll]
    exact List.forall_mem_nil _
  | cons st ss ih =>
    obtain ⟨hst, hss⟩ := List.forall_mem_cons.1 h
    rw [partsOfAll]
    exact List.forall_mem_append.2 ⟨hst, ih hss⟩

/-- Statements that obey the rules are made of regular parts. -/
theorem Checked.parts {b : Bool} {st : Stmt} (h : st.Checked Γ b) :
    ∀ x ∈ st.parts, x.Regular N := by
  induction h with
  | block _ ih =>
    rw [Stmt.parts]
    exact partsOfAll_regular ih
  | ifThen hc _ _ ih =>
    rw [Stmt.parts]
    exact List.forall_mem_append.2 ⟨hc.parts hΓ, ih⟩
  | ifElse hc _ _ _ ihy ihn =>
    rw [Stmt.parts]
    exact List.forall_mem_append.2 ⟨List.forall_mem_append.2 ⟨hc.parts hΓ, ihy⟩, ihn⟩
  | forTo ht _ _ hf _ hb _ _ ih =>
    rw [Stmt.parts]
    refine List.forall_mem_append.2 ⟨List.forall_mem_append.2 ⟨?_, hb.parts hΓ⟩, ih⟩
    exact List.forall_mem_append.2 ⟨ht.parts hΓ, hf.parts hΓ⟩
  | «while» hc _ _ ih =>
    rw [Stmt.parts]
    exact List.forall_mem_append.2 ⟨hc.parts hΓ, ih⟩
  | repeatUntil _ hc _ ih =>
    rw [Stmt.parts]
    exact List.forall_mem_append.2 ⟨ih, hc.parts hΓ⟩
  | assign ht _ he =>
    rw [Stmt.parts]
    exact List.forall_mem_append.2 ⟨ht.parts hΓ, he.parts hΓ⟩
  | call hs ha =>
    rw [Stmt.parts]
    refine List.forall_mem_append.2 ⟨List.forall_mem_append.2 ⟨?_, ?_⟩, ?_⟩
    · exact Expr.partsOfAll_regular fun e he => (ha e he).parts hΓ
    · exact Ty.partsOfAll_regular (hΓ.params _ _ _ hs)
    · exact Ty.partsOfAll_regular fun t ht => hΓ.returns _ _ _ hs t (Option.mem_toList.1 ht)
  | write ha =>
    rw [Stmt.parts]
    intro x hx
    obtain ⟨a, hmem, hx⟩ := List.mem_flatMap.1 hx
    cases a with
    | text => cases hx
    | value e => exact (ha _ hmem).1.parts hΓ x hx
  | transition =>
    rw [Stmt.parts]
    exact List.forall_mem_nil _

end Stmt

end

theorem partsOfEntries_regular {entries : List (Name × Declaration)}
    (h : ∀ e ∈ entries, ∀ x ∈ e.2.parts, x.Regular N) :
    ∀ x ∈ partsOfEntries entries, x.Regular N := by
  induction entries with
  | nil =>
    rw [partsOfEntries]
    exact List.forall_mem_nil _
  | cons e entries ih =>
    obtain ⟨he, hes⟩ := List.forall_mem_cons.1 h
    rw [partsOfEntries]
    exact List.forall_mem_append.2 ⟨he, ih hes⟩

theorem Stmt.Regular.parts {st : Stmt} (h : st.Regular N) : ∀ x ∈ st.parts, x.Regular N := by
  obtain ⟨Γ, hΓ, hst⟩ := h
  exact hst.parts hΓ

end MiniPascal
