import Mathlib
import MiniPascal.Proofs.Checked.Preorder
import MiniPascal.Proofs.Reading.Declares
import MiniPascal.Proofs.Reading.Program

namespace MiniPascal

/-- Of these declarations only routines have the name of one of the parameters. -/
def Scope.Spares (locals params : Scope) : Prop :=
  ∀ e ∈ locals.entries, params.contains e.1 = true → ∃ r, e.2 = .routine r

/-- Of the declarations in a routine, and in those declared in it, only routines have the name of a
parameter. -/
inductive Routine.Spared : Routine → Prop
  | intro {r : Routine} (hb : ∀ body ∈ r.body, body.scope.Spares r.params)
    (hn : ∀ body ∈ r.body, ∀ n q, (n, .routine q) ∈ body.scope.entries → Spared q) : Spared r

/-- What holds of the innermost scope between two declarations: its names differ, and only routines
have the names of parameters, there and in the routines declared so far. -/
structure Scopes.Spared (s : Scopes) : Prop where
  nodup : (s.top.entries.map fun e => e.1.canonical).Nodup
  spares : s.top.Spares s.params
  routines : ∀ n r, (n, .routine r) ∈ s.top.entries → r.Spared

theorem Routine.Spared.of_bodiless {r : Routine} (hr : r.body = none) : r.Spared := by
  refine .intro ?_ ?_ <;> · rw [hr]; exact nofun

theorem Routine.Spared.of_mem_preorder {r : Routine} (h : r.Spared) {path : List String}
    {e : List String × Routine} (he : e ∈ r.preorder path) : e.2.Spared := by
  induction h generalizing path with
  | @intro r hb hn ih =>
    rw [preorder_eq] at he
    rcases List.mem_cons.1 he with rfl | he
    · exact .intro hb hn
    · cases hbody : r.body with
      | none =>
        rw [hbody] at he
        cases he
      | some body =>
        rw [hbody] at he
        obtain ⟨n, q, hq, he⟩ := mem_preorderOfEntries.1 he
        exact ih body hbody n q hq he

/-- The two headings of a routine declare the same names. -/
theorem Routine.contains_of_sameSignature {r q : Routine} (h : r.sameSignature q = true)
    (n : Name) : r.params.contains n = q.params.contains n := by
  simp only [sameSignature, Bool.and_eq_true, decide_eq_true_eq, List.all_eq_true] at h
  have hzip : ∀ es fs : List (Name × Declaration), es.length = fs.length →
      (∀ pq ∈ es.zip fs, sameParam pq.1 pq.2 = true) →
      es.any (fun e => e.1 == n) = fs.any fun e => e.1 == n := by
    intro es
    induction es with
    | nil =>
      intro fs hl _
      rw [List.length_eq_zero_iff.1 hl.symm]
    | cons e es ih =>
      intro fs hl hp
      cases fs with
      | nil => cases hl
      | cons f fs =>
        rw [List.zip_cons_cons, List.forall_mem_cons] at hp
        have hname : (e.1 == f.1) = true := by
          obtain ⟨m, d⟩ := e
          obtain ⟨m', d'⟩ := f
          have hp := hp.1
          cases d <;> cases d' <;> simp [sameParam] at hp
          exact hp.1
        rw [List.any_cons, List.any_cons, ih fs (Nat.succ.inj hl) hp.2, BEq.congr_left hname]
  exact hzip _ _ h.1.2 fun pq hpq => h.2 pq hpq

namespace Scopes

variable {s s' : Scopes} {n : Name} {d : Declaration}

theorem Spared.push (hs : s.Spared) (hc : s.top.contains n = false)
    (hd : s.params.contains n = true → ∃ r, d = .routine r)
    (hr : ∀ r, d = .routine r → r.Spared) :
    (s.withTop ⟨s.top.entries ++ [(n, d)]⟩).Spared := by
  refine ⟨?_, ?_, ?_⟩
  · rw [top_withTop]
    exact Scope.nodup_snoc hs.nodup hc
  · rw [top_withTop, params_withTop]
    exact List.forall_mem_append.2 ⟨hs.spares, List.forall_mem_singleton.2 hd⟩
  · intro m r hm
    rw [top_withTop] at hm
    rcases List.mem_append.1 hm with hm | hm
    · exact hs.routines m r hm
    · cases List.mem_singleton.1 hm
      exact hr r rfl

theorem Spared.declare (hs : s.Spared) (hd : ∀ r, d ≠ .routine r) (h : s.declare n d = .ok s') :
    s'.Spared := by
  obtain ⟨hp, hc, rfl⟩ := declare_eq_ok h
  apply hs.push hc
  · intro hn
    rw [hp] at hn
    cases hn
  · intro r hr
    exact absurd hr (hd r)

theorem Spared.register (hs : s.Spared) {r : Routine} (hr : r.body = none) {forward : Bool}
    (h : Grammar.register s n r forward = .ok s') : s'.Spared := by
  rcases Grammar.Declares.register_cases h with ⟨hc, rfl⟩ | ⟨rfl, -⟩
  · apply hs.push hc
    · intro _
      exact ⟨r, rfl⟩
    · rintro _ ⟨⟩
      exact .of_bodiless hr
  · exact hs

theorem enter_spared (s : Scopes) (params : Scope) : (s.enter params).Spared :=
  ⟨List.nodup_nil, List.forall_mem_nil _, fun _ _ => nofun⟩

theorem Spared.enterBody {r : Routine} (h : Grammar.enterBody s n r = .ok s') : s'.Spared := by
  rcases Grammar.Declares.enterBody_cases h with ⟨rfl, -⟩ | ⟨t, -, hd⟩
  · exact enter_spared s r.params
  · exact (enter_spared s r.params).declare (fun _ hr => by cases hr) hd

/-- Leaving the body of a routine completes the routine. The parameters that its declarations have
been checked against are those of the definition, and the routine keeps those of its first
heading. -/
theorem Spared.leaveBody (hs : s.Spared) {r e : Routine} {inner : Scopes} {ss : List Stmt}
    (he : s.top.get? n = some (.routine e))
    (hp : ∀ m, e.params.contains m = r.params.contains m)
    (hin : inner.Spared) (hframe : inner = (s.enter r.params).withTop inner.top) :
    (Grammar.leaveBody inner n ss).Spared := by
  obtain ⟨m, hm, hmn⟩ := Scope.get?_mem he
  have hparams : inner.params = r.params := by
    rw [hframe, params_withTop]
    rfl
  -- the first heading has parameters of the same names, so the body spares these too
  have hcomplete : (e.complete ⟨inner.top, ss⟩).Spared := by
    refine .intro ?_ ?_
    · rintro _ ⟨⟩
      intro x hx hc
      apply hin.spares x hx
      rw [hparams, ← hp]
      exact hc
    · rintro _ ⟨⟩
      exact hin.routines
  rw [Grammar.Declares.leaveBody_enter hframe]
  refine ⟨?_, ?_, ?_⟩
  · rw [top_withTop, Scope.names_complete]
    exact hs.nodup
  · rw [top_withTop, params_withTop]
    rintro ⟨x, d⟩ hx hc
    rcases Scope.mem_complete hx with ⟨hm, -⟩ | ⟨d', hm, -, rfl⟩
    · exact hs.spares (x, d) hm hc
    · obtain ⟨q, hq⟩ := hs.spares (x, d') hm hc
      dsimp only at hq
      subst hq
      exact ⟨q.complete ⟨inner.top, ss⟩, rfl⟩
  · intro x q hq
    rw [top_withTop] at hq
    rcases Scope.mem_complete hq with ⟨hq, -⟩ | ⟨d', hx, hxn, hd⟩
    · exact hs.routines x q hq
    · -- the names differ, so the completed routine is the one that was registered
      have hsame := List.inj_on_of_nodup_map hs.nodup hx hm (hxn.trans hmn.symm)
      cases hsame
      cases hd
      exact hcomplete

theorem empty_spared : empty.Spared :=
  ⟨List.nodup_nil, List.forall_mem_nil _, fun _ _ => nofun⟩

end Scopes

/-- Every step of the declarations leaves the names of parameters to routines. -/
theorem Grammar.Declares.spared {s s' : Scopes} (h : Declares s s') (hs : s.Spared) :
    s'.Spared := by
  induction h with
  | refl => exact hs
  | plain _ hd hs' ih => exact (ih hs).declare hd hs'
  | forward _ hr hs' ih => exact (ih hs).register hr hs'
  | @routine s s₁ s₂ s₃ s₄ n r ss _ hr hs' he hb ih ihb =>
    have hs₂ : s₂.Spared := (ih hs).register hr hs'
    have hs₄ : s₄.Spared := ihb (.enterBody he)
    have hframe := ((enterBody_declares he).trans hb).frame
    -- the body belongs to the heading just registered or to an earlier one with these parameters
    rcases register_cases hs' with ⟨hc, rfl⟩ | ⟨rfl, -, e, hget, -, hsig⟩
    · refine hs₂.leaveBody (e := r) ?_ (fun _ => rfl) hs₄ hframe
      rw [Scopes.top_withTop]
      exact Scope.get?_snoc hc
    · exact hs₂.leaveBody hget (Routine.contains_of_sameSignature hsig) hs₄ hframe

namespace Program

/-- In a program that has been read, a variable, a constant, a type or the result of a routine at
any depth does not have the name of one of its parameters. Only a routine that is declared in it
can have such a name. -/
theorem ofText_parameters {text name : String} {p : Program} (h : ofText text name = .ok p) :
    ∀ path r, (path, r) ∈ p.routines → ∃ body, r.body = some body ∧
      ∀ n d, (n, d) ∈ body.scope.entries → ∀ m e, (m, e) ∈ r.params.entries →
        n.canonical = m.canonical → ∃ q, d = .routine q := by
  obtain ⟨s, hs, hscope⟩ := ofText_declares h
  intro path r hr
  obtain ⟨E, -, hchecked⟩ := (ofText_checked h).1.of_mem_routines hr
  have hspared : r.Spared := by
    obtain ⟨n, q, hq, hr⟩ := mem_preorderOfEntries.1 hr
    have htop : s.globals = s.top := by
      rw [hs.frame]
      rfl
    rw [hscope, htop] at hq
    have hq' := (hs.spared Scopes.empty_spared).routines n q hq
    exact hq'.of_mem_preorder hr
  cases hchecked with
  | @intro _ _ _ body _ hb =>
    refine ⟨body, hb, ?_⟩
    intro n d hd m e hm hnm
    cases hspared with
    | intro hbody _ =>
      apply hbody body hb (n, d) hd
      rw [Scope.contains, List.any_eq_true]
      exact ⟨(m, e), hm, (Name.beq_iff m n).2 hnm.symm⟩

theorem ofText_parameters_nested :
    ∃ p, ofText ("function f(A: integer): integer; var b: integer; procedure a; " ++
        "begin end; begin f := 1 end; begin end.") "t" = .ok p ∧
      ∀ path r, (path, r) ∈ p.routines → ∃ body, r.body = some body ∧
        ∀ n d, (n, d) ∈ body.scope.entries → ∀ m e, (m, e) ∈ r.params.entries →
          n.canonical = m.canonical → ∃ q, d = .routine q := by
  have hread : ∃ p, ofText ("function f(A: integer): integer; var b: integer; procedure a; " ++
      "begin end; begin f := 1 end; begin end.") "t" = .ok p ∧ (p.routines.length == 2) = true :=
    exists_ofText (by cbv)
  obtain ⟨p, hp, -⟩ := hread
  exact ⟨p, hp, ofText_parameters hp⟩

/-- The program of a text in which a routine has the name of a parameter of the routine around
it. -/
theorem ofText_hidden :
    ofText "procedure p(a: integer); procedure a; begin end; begin end; begin end." "t" =
      .ok ⟨"t", ⟨[(⟨"p"⟩, .routine ⟨⟨1, 11⟩, "p", ⟨[(⟨"a"⟩, .var ⟨1, 13⟩ .integer)]⟩, none,
        some ⟨⟨[(⟨"a"⟩, .routine ⟨⟨1, 36⟩, "p.a", .empty, none, some ⟨.empty, []⟩, false⟩)]⟩, []⟩,
        false⟩)]⟩, []⟩ := by
  cbv

end Program

end MiniPascal
