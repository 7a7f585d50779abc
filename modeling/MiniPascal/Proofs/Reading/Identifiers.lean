import Mathlib
import MiniPascal.Proofs.Checked.Preorder
import MiniPascal.Proofs.Reading.Program

/-! Where the variables of identifiers are stored. -/

namespace MiniPascal

/-- An identifier that stands for a variable. -/
structure Identifier where
  name : Name
  type : Ty
  storage : Storage

mutual

/-- The identifiers of variables in an expression, from left to right. -/
def Expr.identifiers : Expr → List Identifier
  | .int .. | .double .. | .bool .. => []
  | .var _ t n storage => [⟨n, t, storage⟩]
  | .unary _ _ _ e => e.identifiers
  | .binary _ _ _ l r => l.identifiers ++ r.identifiers
  | .call _ _ _ _ args _ => Expr.identifiersOfAll args
  | .index _ _ a i => a.identifiers ++ i.identifiers
  | .field _ _ r _ _ => r.identifiers

/-- The identifiers of variables in some expressions. -/
def Expr.identifiersOfAll : List Expr → List Identifier
  | [] => []
  | e :: es => e.identifiers ++ Expr.identifiersOfAll es

end

/-- The identifiers of variables in what is written. -/
def WriteArg.identifiers : WriteArg → List Identifier
  | .text _ => []
  | .value e => e.identifiers

namespace Stmt

mutual

/-- The identifiers of variables in a statement and those in it. -/
def identifiers : Stmt → List Identifier
  | block ss => identifiersOfAll ss
  | ifElse c yes none => c.identifiers ++ yes.identifiers
  | ifElse c yes (some no) => c.identifiers ++ yes.identifiers ++ no.identifiers
  | forTo _ target first bound body =>
    target.identifiers ++ first.identifiers ++ bound.identifiers ++ body.identifiers
  | .while c body => c.identifiers ++ body.identifiers
  | repeatUntil body c => body.identifiers ++ c.identifiers
  | assign target e => target.identifiers ++ e.identifiers
  | call _ _ args _ _ => Expr.identifiersOfAll args
  | write _ args => args.flatMap WriteArg.identifiers
  | transition .. => []

/-- The identifiers of variables in some statements. -/
def identifiersOfAll : List Stmt → List Identifier
  | [] => []
  | s :: ss => s.identifiers ++ identifiersOfAll ss

end

end Stmt

namespace Identifier

/-- The identifier is marked as global and names a variable of that type. -/
def NamesGlobal (vars : List (Name × Ty)) (x : Identifier) : Prop :=
  x.storage = .global ∧ ∃ m, (m, x.type) ∈ vars ∧ m.canonical = x.name.canonical

/-- The identifier is marked as one of a routine and names one of these variables, of a type of that
structure. -/
def NamesLocal (vars : List (Name × Ty)) (x : Identifier) : Prop :=
  x.storage = .routine ∧ ∃ m t, (m, t) ∈ vars ∧ m.canonical = x.name.canonical ∧
    t.sameShape x.type = true

end Identifier

/-! ### Contexts -/

section

variable {Γ : Context}

/-- The identifiers of checked expressions are variables of the context. -/
theorem Expr.Checked.identifiers {e : Expr} (h : e.Checked Γ) :
    ∀ x ∈ e.identifiers, Γ.var x.storage x.name x.type := by
  induction h with
  | int | double | bool | negative =>
    simp only [Expr.identifiers]
    exact List.forall_mem_nil _
  | var hn =>
    rw [Expr.identifiers]
    exact List.forall_mem_singleton.2 hn
  | unary _ _ ih | field _ _ _ _ ih =>
    rw [Expr.identifiers]
    exact ih
  | binary _ _ _ ihl ihr =>
    rw [Expr.identifiers]
    exact List.forall_mem_append.2 ⟨ihl, ihr⟩
  | index _ _ _ _ _ iha ihi =>
    rw [Expr.identifiers]
    exact List.forall_mem_append.2 ⟨iha, ihi⟩
  | @call _ _ _ _ args _ _ _ _ ih =>
    rw [Expr.identifiers]
    clear * - ih
    induction args with
    | nil => exact List.forall_mem_nil _
    | cons e es ihes =>
      obtain ⟨he, hes⟩ := List.forall_mem_cons.1 ih
      exact List.forall_mem_append.2 ⟨he, ihes hes⟩

theorem Expr.identifiersOfAll_checked {es : List Expr} (h : ∀ e ∈ es, e.Checked Γ) :
    ∀ x ∈ Expr.identifiersOfAll es, Γ.var x.storage x.name x.type := by
  induction es with
  | nil => exact List.forall_mem_nil _
  | cons e es ih =>
    obtain ⟨he, hes⟩ := List.forall_mem_cons.1 h
    exact List.forall_mem_append.2 ⟨he.identifiers, ih hes⟩

theorem WriteArg.Checked.identifiers {a : WriteArg} (h : a.Checked Γ) :
    ∀ x ∈ a.identifiers, Γ.var x.storage x.name x.type := by
  cases a with
  | text => exact List.forall_mem_nil _
  | value e => exact h.1.identifiers

theorem Stmt.identifiersOfAll_of_forall {ss : List Stmt} {P : Identifier → Prop}
    (h : ∀ s ∈ ss, ∀ x ∈ s.identifiers, P x) : ∀ x ∈ Stmt.identifiersOfAll ss, P x := by
  induction ss with
  | nil => exact List.forall_mem_nil _
  | cons s ss ih =>
    obtain ⟨hs, hss⟩ := List.forall_mem_cons.1 h
    exact List.forall_mem_append.2 ⟨hs, ih hss⟩

/-- The identifiers of checked statements are variables of the context. -/
theorem Stmt.Checked.identifiers {b : Bool} {s : Stmt} (h : s.Checked Γ b) :
    ∀ x ∈ s.identifiers, Γ.var x.storage x.name x.type := by
  induction h with
  | block _ ih =>
    rw [Stmt.identifiers]
    exact Stmt.identifiersOfAll_of_forall ih
  | ifThen hc _ _ ih | «while» hc _ _ ih =>
    rw [Stmt.identifiers]
    exact List.forall_mem_append.2 ⟨hc.identifiers, ih⟩
  | ifElse hc _ _ _ ihy ihn =>
    rw [Stmt.identifiers]
    exact List.forall_mem_append.2 ⟨List.forall_mem_append.2 ⟨hc.identifiers, ihy⟩, ihn⟩
  | forTo ht _ _ hf _ hb _ _ ih =>
    simp only [Stmt.identifiers, List.forall_mem_append]
    exact ⟨⟨⟨ht.identifiers, hf.identifiers⟩, hb.identifiers⟩, ih⟩
  | repeatUntil _ hc _ ih =>
    rw [Stmt.identifiers]
    exact List.forall_mem_append.2 ⟨ih, hc.identifiers⟩
  | assign ht _ he _ =>
    rw [Stmt.identifiers]
    exact List.forall_mem_append.2 ⟨ht.identifiers, he.identifiers⟩
  | call _ ha _ =>
    rw [Stmt.identifiers]
    exact Expr.identifiersOfAll_checked ha
  | write ha =>
    rw [Stmt.identifiers]
    intro x hx
    obtain ⟨a, hm, hx⟩ := List.mem_flatMap.1 hx
    exact (ha a hm).identifiers x hx
  | transition =>
    rw [Stmt.identifiers]
    exact List.forall_mem_nil _

end

/-! ### Programs -/

/-- The identifiers of a routine stand for variables of its own or for variables of the main program
that it does not hide. -/
theorem Routine.Checked.identifiers {E : Environment} {path : List String} {r : Routine}
    (h : r.Checked E path) : ∃ body, r.body = some body ∧
      ∀ x ∈ Stmt.identifiersOfAll body.statements,
        x.NamesLocal (r.params.vars ++ body.scope.vars) ∨
        x.NamesGlobal E.vars ∧ r.params.contains x.name = false ∧
          body.scope.contains x.name = false := by
  cases h with
  | @intro E path r body _ hb _ _ _ hs _ =>
    refine ⟨body, hb, fun x hx => ?_⟩
    have hvar := Stmt.identifiersOfAll_of_forall (fun s hm => (hs s hm).identifiers) x hx
    obtain ⟨n, t, storage⟩ := x
    cases storage with
    | routine => exact .inl ⟨rfl, hvar⟩
    | global => exact .inr ⟨⟨rfl, hvar.1⟩, hvar.2⟩

/-- In a program that has been read, identifiers of a routine at any depth stand for a parameter or
a variable of that routine, or for a variable of the main program whose name the routine does not
declare. The identifiers of the main program stand for its variables. -/
theorem Program.ofText_identifiers {text name : String} {p : Program}
    (h : ofText text name = .ok p) :
    (∀ x ∈ Stmt.identifiersOfAll p.statements, x.NamesGlobal p.scope.vars) ∧
    ∀ path r, (path, r) ∈ p.routines → ∃ body, r.body = some body ∧
      ∀ x ∈ Stmt.identifiersOfAll body.statements,
        x.NamesLocal (r.params.vars ++ body.scope.vars) ∨
        x.NamesGlobal p.scope.vars ∧ r.params.contains x.name = false ∧
          body.scope.contains x.name = false := by
  obtain ⟨hp, -⟩ := ofText_checked h
  refine ⟨fun x hx => ?_, fun path r hr => ?_⟩
  · have hvar := Stmt.identifiersOfAll_of_forall (fun s hm => (hp.statements s hm).identifiers) x hx
    obtain ⟨n, t, storage⟩ := x
    cases storage with
    | global => exact ⟨rfl, hvar.1⟩
    | routine =>
      -- around the main program there are no variables of a routine
      obtain ⟨m, u, hm, -⟩ := hvar
      cases hm
  · obtain ⟨E, hE, hr⟩ := hp.of_mem_routines hr
    exact hE ▸ hr.identifiers

theorem Program.ofText_identifiers_hidden :
    ∃ p, ofText ("var x, y: integer; procedure q(x: double); begin x := y end; " ++
        "begin q(x) end.") "t" = .ok p ∧ p.routines.length = 1 ∧
      (∀ x ∈ Stmt.identifiersOfAll p.statements, x.NamesGlobal p.scope.vars) ∧
      ∀ path r, (path, r) ∈ p.routines → ∃ body, r.body = some body ∧
        ∀ x ∈ Stmt.identifiersOfAll body.statements,
          x.NamesLocal (r.params.vars ++ body.scope.vars) ∨
          x.NamesGlobal p.scope.vars ∧ r.params.contains x.name = false ∧
            body.scope.contains x.name = false := by
  have hread : ∃ p, ofText ("var x, y: integer; procedure q(x: double); begin x := y end; " ++
      "begin q(x) end.") "t" = .ok p ∧ (p.routines.length == 1) = true := exists_ofText (by cbv)
  obtain ⟨p, hp, hlength⟩ := hread
  exact ⟨p, hp, beq_iff_eq.1 hlength, ofText_identifiers hp⟩

end MiniPascal
