import MiniPascal.Lowering.Program
import MiniPascal.Proofs.Checked.Scope

/-! Routines and programs that obey the rules. A variable may have been declared twice, in a
`forward` heading and in a definition. -/

namespace MiniPascal

namespace Ty

mutual

theorem sameShape_refl : ∀ t : Ty, t.sameShape t = true
  | .scalar s => by simp [sameShape]
  | .array low high element => by simp [sameShape, sameShape_refl element]
  | .record fields => by simp only [sameShape, sameFields_refl fields]

theorem sameFields_refl : ∀ fields : List (Name × Ty), sameFields fields fields = true
  | [] => by simp [sameFields]
  | (n, t) :: fields => by simp [sameFields, sameShape_refl t, sameFields_refl fields]

end

end Ty

/-- How a routine is called: its symbol, the types of its parameters, and that of its result. -/
structure Signature where
  symbol : String
  params : List Ty
  returns : Option Ty

/-- The signature of a routine. -/
def Routine.signature (r : Routine) : Signature := ⟨r.symbol, r.paramTypes, r.returns⟩

/-- The signatures of the routines that are declared, in order. -/
def Scope.signatures (s : Scope) : List Signature := s.routines.map fun e => e.2.signature

/-- What routines use of what is declared around them: the variables of the main program, and the
routines. -/
structure Environment where
  vars : List (Name × Ty)
  routines : List Signature

namespace Environment

/-- What one environment has, another has too. -/
structure Le (E E' : Environment) : Prop where
  vars : E.vars ⊆ E'.vars
  routines : E.routines ⊆ E'.routines

/-- What is around the routines of a scope. -/
def inside (E : Environment) (s : Scope) : Environment := ⟨E.vars, E.routines ++ s.signatures⟩

variable {E E' : Environment}

theorem Le.inside (h : E.Le E') (s : Scope) : (E.inside s).Le (E'.inside s) :=
  ⟨h.vars, List.append_subset.2
    ⟨fun _ hr => List.mem_append_left _ (h.routines hr), List.subset_append_right _ _⟩⟩

end Environment

/-- The context of statements that use the variables of the main program and these of a routine. -/
def Context.ofVars (E : Environment) (locals : List (Name × Ty)) : Context where
  var st n t := match st with
    | .global => ∃ m, (m, t) ∈ E.vars ∧ m.canonical = n.canonical
    | .routine => ∃ m u, (m, u) ∈ locals ∧ m.canonical = n.canonical ∧ u.sameShape t = true
  routine symbol params returns := ⟨symbol, params, returns⟩ ∈ E.routines

/-- The context of the statements of a routine with these parameters and declarations. They use a
variable of the main program only if the routine does not declare its name. -/
def Context.ofScopes (E : Environment) (params locals : Scope) : Context where
  var st n t := match st with
    | .global => (∃ m, (m, t) ∈ E.vars ∧ m.canonical = n.canonical) ∧
      params.contains n = false ∧ locals.contains n = false
    | .routine => ∃ m u, (m, u) ∈ params.vars ++ locals.vars ∧ m.canonical = n.canonical ∧
      u.sameShape t = true
  routine symbol params returns := ⟨symbol, params, returns⟩ ∈ E.routines

/-- Variables with different names, all of which are words. -/
structure Distinct (vars : List (Name × Ty)) : Prop where
  words : ∀ v ∈ vars, v.1.IsWord
  nodup : (vars.map fun v => v.1.canonical).Nodup

/-- Different names, all of which are words. -/
structure Scope.Named (s : Scope) : Prop where
  words : ∀ e ∈ s.entries, e.1.IsWord
  nodup : (s.entries.map fun e => e.1.canonical).Nodup

/-- A routine with a body that obeys the rules, as do those declared in it. Its symbol spells the
path to it: the names of the routines around it and its own. -/
inductive Routine.Checked : Environment → List String → Routine → Prop
  | intro {E : Environment} {path : List String} {r : Routine} {body : Block}
    (hp : r.symbol = ".".intercalate path) (hb : r.body = some body)
    (hv : Distinct (r.params.vars ++ body.scope.vars)) (hl : body.scope.Named)
    (hr : ∀ t ∈ r.returns, ∃ v ∈ body.scope.vars,
      v.1.canonical = Lowering.ownName r.symbol ∧ t.sameShape v.2 = true)
    (hs : ∀ s ∈ body.statements,
      s.Checked (.ofScopes (E.inside body.scope) r.params body.scope) false)
    (hn : ∀ n q, (n, .routine q) ∈ body.scope.entries →
      Checked (E.inside body.scope) (path ++ [n.canonical]) q) : Checked E path r

mutual

/-- The number of labels that the code of a routine and of those declared in it needs. -/
def Routine.labels : Routine → Nat
  | ⟨_, _, _, _, none, _⟩ => 0
  | ⟨_, _, _, _, some ⟨⟨entries⟩, ss⟩, _⟩ => Stmt.labelsOfAll ss + labelsOfEntries entries

/-- The number of labels that the code of the routines among some declarations needs. -/
def labelsOfEntries : List (Name × Declaration) → Nat
  | [] => 0
  | (_, d) :: entries => d.labels + labelsOfEntries entries

/-- The number of labels that the code of a declaration needs. -/
def Declaration.labels : Declaration → Nat
  | .routine r => r.labels
  | .var .. | .const .. | .type .. => 0

end

/-- What the declarations of a program have. -/
def Program.environment (p : Program) : Environment := ⟨p.scope.vars, p.scope.signatures⟩

/-- A program that obeys the rules. -/
structure Program.Checked (p : Program) : Prop where
  named : p.scope.Named
  types : ∀ v ∈ p.scope.vars, v.2.WellFormed
  routines : ∀ n r, (n, .routine r) ∈ p.scope.entries → r.Checked p.environment [n.canonical]
  statements : ∀ s ∈ p.statements, s.Checked (.ofScopes p.environment .empty .empty) false

/-- The number of labels that the code of a program needs. -/
def Program.labels (p : Program) : Nat :=
  labelsOfEntries p.scope.entries + Stmt.labelsOfAll p.statements

theorem Context.ofScopes_le {E E' : Environment} (h : E.Le E') (params locals : Scope) :
    (ofScopes E params locals).Le (ofVars E' (params.vars ++ locals.vars)) where
  var st n t := by
    cases st with
    | global => exact fun ⟨⟨m, hm, hn⟩, _⟩ => ⟨m, h.vars hm, hn⟩
    | routine => exact id
  routine _ _ _ hr := h.routines hr

theorem Context.ofScopes_mono {E E' : Environment} (h : E.Le E') (params locals : Scope) :
    (ofScopes E params locals).Le (ofScopes E' params locals) where
  var st n t := by
    cases st with
    | global => exact fun ⟨⟨m, hm, hn⟩, hc⟩ => ⟨⟨m, h.vars hm, hn⟩, hc⟩
    | routine => exact id
  routine _ _ _ hr := h.routines hr

theorem Routine.Checked.mono {E E' : Environment} (h : E.Le E') {path : List String}
    {r : Routine} (hr : r.Checked E path) : r.Checked E' path := by
  induction hr generalizing E' with
  | intro hp hb hv hl hr hs _ ih =>
    exact .intro hp hb hv hl hr
      (fun s hm => (hs s hm).mono (Context.ofScopes_mono (h.inside _) _ _))
      fun n q hq => ih n q hq (h.inside _)

theorem labelsOfEntries_append (es fs : List (Name × Declaration)) :
    labelsOfEntries (es ++ fs) = labelsOfEntries es + labelsOfEntries fs := by
  induction es with
  | nil => simp [labelsOfEntries]
  | cons e es ih =>
    obtain ⟨n, d⟩ := e
    simp only [List.cons_append, labelsOfEntries, ih, Nat.add_assoc]

/-! ### Scopes with different names -/

namespace Scope

/-- Different variables of well-formed types. -/
structure IsParams (s : Scope) : Prop extends s.Named where
  vars : ∀ e ∈ s.entries, ∃ p t, e.2 = .var p t ∧ t.WellFormed

variable {s : Scope} {n : Name} {d : Declaration}

theorem empty_named : empty.Named := ⟨nofun, List.nodup_nil⟩

theorem empty_isParams : empty.IsParams := ⟨empty_named, nofun⟩

theorem contains_eq_false :
    s.contains n = false ↔ ∀ e ∈ s.entries, e.1.canonical ≠ n.canonical := by
  simp only [contains, List.any_eq_false, Name.beq_iff]

theorem insert_eq_ok {s' : Scope} (h : s.insert n d = .ok s') :
    s.contains n = false ∧ s' = ⟨s.entries ++ [(n, d)]⟩ := by
  unfold insert at h
  split at h
  · cases h
  · rename_i hc
    cases h
    exact ⟨by simpa using hc, rfl⟩

theorem nodup_snoc (h : (s.entries.map fun e => e.1.canonical).Nodup)
    (hc : s.contains n = false) :
    ((s.entries ++ [(n, d)]).map fun e => e.1.canonical).Nodup := by
  rw [List.map_append, List.nodup_append]
  refine ⟨h, by simp, ?_⟩
  simp only [List.mem_map, List.map_cons, List.map_nil, List.mem_singleton]
  rintro _ ⟨e, he, rfl⟩ _ rfl
  exact contains_eq_false.1 hc e he

theorem get?_push {m : Name} (hc : s.contains n = false) :
    (⟨s.entries ++ [(n, d)]⟩ : Scope).get? m = if n == m then some d else s.get? m := by
  by_cases h : (n == m) = true
  · have hnone : s.entries.find? (fun e => e.1 == m) = none := by
      rw [List.find?_eq_none]
      intro e he hb
      apply contains_eq_false.1 hc e he
      rw [(Name.beq_iff _ _).1 hb, (Name.beq_iff _ _).1 h]
    simp [get?, List.find?_append, hnone, h]
  · simp [get?, List.find?_append, h]

theorem get?_snoc (hc : s.contains n = false) :
    (⟨s.entries ++ [(n, d)]⟩ : Scope).get? n = some d := by
  rw [get?_push hc, if_pos BEq.rfl]

theorem Named.snoc (h : s.Named) (hw : n.IsWord) (hc : s.contains n = false) :
    (⟨s.entries ++ [(n, d)]⟩ : Scope).Named where
  words := by
    simpa only [List.forall_mem_append, List.forall_mem_singleton] using ⟨h.words, hw⟩
  nodup := nodup_snoc h.nodup hc

theorem vars_snoc : (⟨s.entries ++ [(n, d)]⟩ : Scope).vars =
    s.vars ++ (match d with | .var _ t => [(n, t)] | _ => []) := by
  cases d <;> simp [vars, List.filterMap_append]

theorem vars_sublist (s : Scope) :
    (s.vars.map fun v => v.1.canonical).Sublist (s.entries.map fun e => e.1.canonical) := by
  obtain ⟨entries⟩ := s
  induction entries with
  | nil => exact .slnil
  | cons e es ih =>
    obtain ⟨n, d⟩ := e
    cases d with
    | var p t => exact ih.cons_cons n.canonical
    | const | type | routine => exact ih.cons n.canonical

theorem Named.distinct (h : s.Named) : Distinct s.vars where
  words v hv := by
    obtain ⟨p, hp⟩ := mem_vars.1 hv
    exact h.words _ hp
  nodup := h.nodup.sublist s.vars_sublist

theorem signatures_snoc : (⟨s.entries ++ [(n, d)]⟩ : Scope).signatures =
    s.signatures ++ (match d with | .routine r => [r.signature] | _ => []) := by
  cases d <;> simp [signatures, routines, List.filterMap_append]

theorem mem_signatures {σ : Signature} :
    σ ∈ s.signatures ↔ ∃ n r, (n, .routine r) ∈ s.entries ∧ r.signature = σ := by
  simp only [signatures, List.mem_map, Prod.exists, mem_routines]

theorem All.snoc {P : Declaration → Prop} (h : s.All P) (hd : P d) :
    (⟨s.entries ++ [(n, d)]⟩ : Scope).All P :=
  List.forall_mem_append.2 ⟨h, List.forall_mem_singleton.2 hd⟩

namespace IsParams

variable (h : s.IsParams)
include h

theorem sound : s.Sound := by
  intro e he
  obtain ⟨p, t, hd, ht⟩ := h.vars e he
  rw [hd]
  exact ht

theorem signatures : s.signatures = [] := by
  refine List.eq_nil_iff_forall_not_mem.2 fun σ hσ => ?_
  obtain ⟨m, r, hr, -⟩ := mem_signatures.1 hσ
  obtain ⟨p, t, hd, -⟩ := h.vars _ hr
  cases hd

/-- Parameters have the names of their variables only. -/
theorem contains_eq_false : s.contains n = false ↔
    n.canonical ∉ s.vars.map fun v => v.1.canonical := by
  rw [Scope.contains_eq_false, List.mem_map]
  constructor
  · rintro hn ⟨⟨m, t⟩, hm, hc⟩
    obtain ⟨p, hp⟩ := mem_vars.1 hm
    exact hn _ hp hc
  · rintro hn ⟨m, d⟩ he hc
    obtain ⟨p, t, rfl, -⟩ := h.vars _ he
    exact hn ⟨(m, t), mem_vars.2 ⟨p, he⟩, hc⟩

end IsParams

end Scope

theorem Program.Checked.vars {p : Program} (h : p.Checked) : Distinct p.scope.vars :=
  h.named.distinct

/-! ### Two declarations of one routine -/

/-- Variables of the same names and structures in the same order. -/
def SameVars : List (Name × Ty) → List (Name × Ty) → Prop :=
  List.Forall₂ fun v w => v.1.canonical = w.1.canonical ∧ v.2.sameShape w.2 = true

theorem sameVars_refl (vars : List (Name × Ty)) : SameVars vars vars :=
  List.forall₂_same.2 fun v _ => ⟨rfl, v.2.sameShape_refl⟩

theorem SameVars.canonical {vs ws : List (Name × Ty)} (h : SameVars vs ws) :
    vs.map (fun v => v.1.canonical) = ws.map fun v => v.1.canonical := by
  induction h with
  | nil => rfl
  | cons h _ ih => simp only [List.map_cons, h.1, ih]

theorem SameVars.exists_left {vs ws : List (Name × Ty)} (h : SameVars vs ws) {w : Name × Ty}
    (hw : w ∈ ws) : ∃ v ∈ vs, v.1.canonical = w.1.canonical ∧ v.2.sameShape w.2 = true := by
  induction h with
  | nil => cases hw
  | @cons v w' _ _ h _ ih =>
    rcases List.mem_cons.1 hw with rfl | hw
    · exact ⟨v, List.mem_cons_self, h⟩
    · obtain ⟨v, hv, h⟩ := ih hw
      exact ⟨v, List.mem_cons_of_mem _ hv, h⟩

/-- The declaration of a variable. -/
def Declaration.IsVar (d : Declaration) : Prop := ∃ p t, d = .var p t

namespace Routine

theorem sameVars_of_zip {es fs : List (Name × Declaration)} (hl : es.length = fs.length)
    (h : ∀ pq ∈ es.zip fs, sameParam pq.1 pq.2 = true) :
    SameVars (Scope.vars ⟨es⟩) (Scope.vars ⟨fs⟩) := by
  induction es generalizing fs with
  | nil =>
    cases fs with
    | nil => exact .nil
    | cons => cases hl
  | cons e es ih =>
    cases fs with
    | nil => cases hl
    | cons f fs =>
      rw [List.zip_cons_cons, List.forall_mem_cons] at h
      obtain ⟨m, d⟩ := e
      obtain ⟨n, d'⟩ := f
      have ih := ih (Nat.succ.inj hl) h.2
      have hp := h.1
      cases d with
      | var p t =>
        cases d' with
        | var q u =>
          simp only [sameParam, Bool.and_eq_true, Name.beq_iff] at hp
          have : SameVars ((m, t) :: Scope.vars ⟨es⟩) ((n, u) :: Scope.vars ⟨fs⟩) :=
            List.forall₂_cons.2 ⟨hp, ih⟩
          exact this
        | const | type | routine => simp [sameParam] at hp
      | const | type | routine => simp [sameParam] at hp

/-- Declaration and definition of a routine have the same variables as parameters. -/
theorem sameVars_of_sameSignature {r q : Routine} (h : r.sameSignature q = true) :
    SameVars r.params.vars q.params.vars := by
  simp only [sameSignature, Bool.and_eq_true, decide_eq_true_eq, List.all_eq_true] at h
  exact sameVars_of_zip h.1.2 fun pq hpq => h.2 pq hpq

theorem sameResult_of_sameSignature {r q : Routine} (h : r.sameSignature q = true) {t : Ty}
    (ht : r.returns = some t) : ∃ u, q.returns = some u ∧ t.sameShape u = true := by
  simp only [sameSignature, Bool.and_eq_true, ht] at h
  cases hq : q.returns with
  | none => simp [hq, sameResult] at h
  | some u => exact ⟨u, rfl, by simpa [hq, sameResult] using h.1.1⟩

/-- The same parameters in the same order, ignoring the case of their names, and the same result;
types are the same if their structures are. -/
structure Matches (r q : Routine) : Prop where
  params : SameVars r.params.vars q.params.vars
  returns : Option.Rel (fun t u => t.sameShape u = true) r.returns q.returns

theorem sameParams_of_sameVars {es fs : List (Name × Declaration)} (hes : ∀ e ∈ es, e.2.IsVar)
    (hfs : ∀ f ∈ fs, f.2.IsVar) (h : SameVars (Scope.vars ⟨es⟩) (Scope.vars ⟨fs⟩)) :
    es.length = fs.length ∧ ∀ pq ∈ es.zip fs, sameParam pq.1 pq.2 = true := by
  induction es generalizing fs with
  | nil =>
    rcases fs with _ | ⟨⟨n, d⟩, fs⟩
    · exact ⟨rfl, List.forall_mem_nil _⟩
    · obtain ⟨q, u, hd⟩ := (List.forall_mem_cons.1 hfs).1
      cases hd
      cases h
  | cons e es ih =>
    obtain ⟨m, d⟩ := e
    obtain ⟨⟨p, t, hd⟩, htail⟩ := List.forall_mem_cons.1 hes
    cases hd
    rcases fs with _ | ⟨⟨n, d⟩, fs⟩
    · cases h
    · obtain ⟨⟨q, u, hd⟩, htail'⟩ := List.forall_mem_cons.1 hfs
      cases hd
      have hcons : SameVars ((m, t) :: Scope.vars ⟨es⟩) ((n, u) :: Scope.vars ⟨fs⟩) := h
      obtain ⟨hhead, hrest⟩ := List.forall₂_cons.1 hcons
      obtain ⟨hlength, hzip⟩ := ih htail htail' hrest
      refine ⟨congrArg (· + 1) hlength, ?_⟩
      rw [List.zip_cons_cons, List.forall_mem_cons]
      refine ⟨?_, hzip⟩
      simpa [sameParam, Name.beq_iff] using hhead

/-- Headings whose parameters are variables are compared by their signatures. -/
theorem sameSignature_iff {r q : Routine} (hr : r.params.All Declaration.IsVar)
    (hq : q.params.All Declaration.IsVar) : r.sameSignature q = true ↔ r.Matches q := by
  constructor
  · intro h
    refine ⟨sameVars_of_sameSignature h, ?_⟩
    simp only [sameSignature, Bool.and_eq_true] at h
    have hret := h.1.1
    unfold sameResult at hret
    split at hret
    · rename_i hr' hq'
      rw [hr', hq']
      exact .none
    · rename_i hr' hq'
      rw [hr', hq']
      exact .some hret
    · cases hret
  · intro ⟨hparams, hreturns⟩
    obtain ⟨hlength, hzip⟩ := sameParams_of_sameVars hr hq hparams
    have hret : sameResult r.returns q.returns = true := by
      cases hr' : r.returns <;> cases hq' : q.returns <;> rw [hr', hq'] at hreturns <;>
        cases hreturns
      · rfl
      · assumption
    simp only [sameSignature, Bool.and_eq_true, decide_eq_true_eq, List.all_eq_true]
    exact ⟨⟨hret, hlength⟩, fun pq hpq => hzip pq hpq⟩

end Routine

end MiniPascal
