import Mathlib
import MiniPascal.Proofs.Reading.Protocol

/-! Forward declarations are completed. -/

namespace MiniPascal

namespace Grammar

open Cursor

variable {text name : String} {path : List String} {s : Scopes} {gs : List Heading} {g : Heading}
  {n : Name}

/-! ### The next declaration -/

/-- What becomes of a heading, by those of its name before and what the name stands for: it is
registered, or it is refused. -/
inductive Heading.Verdict (g : Heading) :
    List Heading → Option Declaration → Option SemanticError → Prop
  | first : Verdict g [] none none
  /-- A clash with something else than a routine. -/
  | clash {d : Declaration} : Verdict g [] (some d) (some (.duplicateDeclaration g.name))
  /-- The definition of a routine declared `forward`. -/
  | completes {f : Heading} {o : Option Declaration} (hf : f.forward = true)
    (hg : g.forward = false) (hm : f.routine.Matches g.routine) : Verdict g [f] o none
  | mismatch {f : Heading} {o : Option Declaration} (hf : f.forward = true)
    (hg : g.forward = false) (hm : ¬f.routine.Matches g.routine) :
    Verdict g [f] o (some (.forwardMismatch g.name))
  | secondForward {f : Heading} {o : Option Declaration} (hf : f.forward = true)
    (hg : g.forward = true) : Verdict g [f] o (some (.duplicateDeclaration g.name))
  /-- Another definition, or a `forward` heading that comes too late. -/
  | behindDefinition {f : Heading} {o : Option Declaration} (hf : f.forward = false) :
    Verdict g [f] o (some (.duplicateDeclaration g.name))
  | behindBoth {f f' : Heading} {o : Option Declaration} :
    Verdict g [f, f'] o (some (.duplicateDeclaration g.name))

theorem Heading.of_single {f g : Heading} (h : f.name = g.name) : Heading.of g.name [f] = [f] := by
  refine List.filter_eq_self.2 fun x hx => ?_
  rw [List.mem_singleton.1 hx, h]
  exact BEq.rfl

theorem register_none {r : Routine} {forward : Bool} (h : s.top.get? n = none) :
    ∃ s', register s n r forward = .ok s' := by
  have hc := Scope.get?_eq_none.1 h
  refine ⟨s.withTop ⟨s.top.entries ++ [(n, .routine r)]⟩, ?_⟩
  unfold register
  rw [h]
  simp [Scopes.insertTop, Scope.insert, hc, Read.checked, bind, Except.bind, pure, Except.pure,
    Except.mapError]

/-- The rules give every heading its verdict. -/
theorem Tracked.exists_verdict (h : Tracked text name path s gs) (hg : g.Sound) :
    ∃ v, g.Verdict (Heading.of g.name gs) (s.top.get? g.name) v ∧ match v with
      | none => ∃ s', register s g.name g.routine g.forward = .ok s'
      | some e =>
        register s g.name g.routine g.forward = .error ⟨g.routine.position, .semantic e⟩ := by
  have hp := h.protocol g.name
  have hsound : ∀ f ∈ Heading.of g.name gs, f.Sound :=
    fun f hm => h.sound f (Heading.mem_of.1 hm).1
  generalize Heading.of g.name gs = hs at hp hsound
  generalize hget : s.top.get? g.name = o at hp
  -- a routine that does not wait is met as a duplicate
  have hdone : ∀ r : Routine, r.forward = false → o = some (.routine r) →
      register s g.name g.routine g.forward =
        .error ⟨g.routine.position, .semantic (.duplicateDeclaration g.name)⟩ := by
    rintro r hr rfl
    simp [register, hget, hr, reject]
  cases hp with
  | free => exact ⟨none, .first, register_none hget⟩
  | @plain d hd =>
    refine ⟨_, .clash, ?_⟩
    unfold register
    rw [hget]
    cases d with
    | routine r => exact absurd rfl (hd r)
    | var | const | type => rfl
  | @waiting f hf =>
    have hsf := hsound f List.mem_cons_self
    cases hforward : g.forward with
    | true =>
      refine ⟨_, .secondForward hf hforward, ?_⟩
      simp [register, hget, reject]
    | false =>
      have hsig := Routine.sameSignature_iff hsf.params hg.params
      by_cases hm : f.routine.Matches g.routine
      · refine ⟨none, .completes hf hforward hm, s, ?_⟩
        simp [register, hget, hsf.forward, hsig.2 hm]
      · refine ⟨_, .mismatch hf hforward hm, ?_⟩
        have hfalse : f.routine.sameSignature g.routine = false :=
          Bool.eq_false_iff.2 fun hs => hm (hsig.1 hs)
        simp [register, hget, hsf.forward, hfalse, reject]
  | defined hf hr => exact ⟨_, .behindDefinition hf, hdone _ hr rfl⟩
  | completed _ _ _ hr => exact ⟨_, .behindBoth, hdone _ hr rfl⟩

/-- A declaration with a name that is taken ends its section. -/
theorem declareAll_taken {scope : Scope} {d : Declaration} (hm : (n, d) ∈ scope.entries)
    (hc : s.top.contains n = true) : ∃ m d', (m, d') ∈ scope.entries ∧
      declareAll s scope = .error ⟨d'.position, .semantic (.duplicateDeclaration m)⟩ := by
  have hall : ∀ (entries : List (Name × Declaration)) (s : Scopes), (n, d) ∈ entries →
      s.top.contains n = true → ∃ m d' s', (m, d') ∈ entries ∧
        s.declareAll entries = (s', some ⟨d'.position, .duplicateDeclaration m⟩) := by
    intro entries
    induction entries with
    | nil =>
      intro s hm
      cases hm
    | cons e entries ih =>
      intro s hm hc
      obtain ⟨m, d'⟩ := e
      rw [Scopes.declareAll]
      cases hs : s.declare m d' with
      | error e =>
        rw [Scopes.declare_error hs]
        exact ⟨m, d', s, List.mem_cons_self, rfl⟩
      | ok s₁ =>
        -- the name is still taken, so it is not the one just declared
        obtain ⟨-, hfree, rfl⟩ := Scopes.declare_eq_ok hs
        rcases List.mem_cons.1 hm with hm | hm
        · cases hm
          rw [hfree] at hc
          cases hc
        · have htaken : (s.withTop ⟨s.top.entries ++ [(m, d')]⟩).top.contains n = true := by
            rw [Scopes.top_withTop, Scope.contains, List.any_append, Bool.or_eq_true]
            exact .inl hc
          obtain ⟨m', d'', s', hm', hs'⟩ := ih _ hm htaken
          exact ⟨m', d'', s', List.mem_cons_of_mem _ hm', hs'⟩
  obtain ⟨m, d', s', hm', hs'⟩ := hall scope.entries s hm hc
  refine ⟨m, d', hm', ?_⟩
  rw [declareAll, Scopes.merge, hs']
  rfl

/-- A name with a heading is taken. -/
theorem Tracked.contains_of_ne_nil (h : Tracked text name path s gs)
    (hn : Heading.of n gs ≠ []) : s.top.contains n = true := by
  by_contra hc
  exact hn (h.of_eq_nil (Bool.eq_false_iff.2 hc))

/-- A part that ends while a name waits is refused at the first `forward` heading that waits. -/
theorem Tracked.checkForwards_error (h : Tracked text name path s gs) {f : Heading}
    (hf : f.forward = true) (hw : Heading.of n gs = [f]) :
    ∃ f' ∈ gs, f'.forward = true ∧ Heading.of f'.name gs = [f'] ∧
      checkForwards s = .error ⟨f'.routine.position, .semantic (.forwardWithoutBody f'.name)⟩ := by
  have hmem : f ∈ gs := (Heading.mem_of.1 (hw ▸ List.mem_singleton_self f)).1
  -- the name stands for the routine of its heading
  have hget : s.top.get? n = some (.routine f.routine) := by
    have hp := h.protocol n
    rw [hw] at hp
    generalize s.top.get? n = o at hp ⊢
    cases hp with
    | waiting => rfl
    | defined hg =>
      rw [hf] at hg
      cases hg
  obtain ⟨m, hm, -⟩ := Scope.get?_mem hget
  unfold checkForwards
  split
  · rename_i m' r hfind
    have hr : r.forward = true := by simpa using List.find?_some hfind
    have hentry : (m', .routine r) ∈ s.top.entries :=
      Scope.mem_routines.1 (List.mem_of_find?_eq_some hfind)
    have hgs := h.waiting m' r hentry hr
    refine ⟨⟨m', r, true⟩, hgs, rfl, ?_, rfl⟩
    have hp := h.protocol m'
    have hof : (⟨m', r, true⟩ : Heading) ∈ Heading.of m' gs := Heading.mem_of.2 ⟨hgs, BEq.rfl⟩
    rw [Scope.get?_of_mem h.nodup hentry] at hp
    show Heading.of m' gs = _
    generalize Heading.of m' gs = hs at hp hof
    cases hp with
    | plain hd => exact absurd rfl (hd r)
    | waiting =>
      rw [List.mem_singleton] at hof
      rw [hof]
    | defined _ hr' =>
      rw [hr] at hr'
      cases hr'
    | completed _ _ _ hr' =>
      rw [hr] at hr'
      cases hr'
  · rename_i hnone
    have hroutine := List.find?_eq_none.1 hnone (m, f.routine) (Scope.mem_routines.2 hm)
    exact absurd (h.sound f hmem).forward hroutine

end Grammar

namespace Program

open Grammar (AtEnd Done Ends Heading Protocol Reaches Starts)

/-- The declaration part of a program that is read comes to its end, and so do those of all
routines. -/
theorem ofText_done {text name : String} {p : Program} (h : ofText text name = .ok p) :
    ∃ s, Done text name [] s ∧ p.scope = s.top := by
  have hread : Read.Ensures (ofText text name) fun p =>
      ∃ s, Done text name [] s ∧ p.scope = s.top := by
    unfold ofText ofCursor
    refine .known ?_
    intro c₀ hc
    refine .known ?_
    rintro ⟨title, c, h⟩ hh
    have hstart : Reaches text name .any [] .empty c [] := .start hc hh
    refine .known ?_
    rintro ⟨s, c₂, h₂⟩ hs
    refine .step fun _ => .step fun _ => .step fun _ => .pure ?_
    have hdone := Grammar.declarations_tracked hstart (Grammar.tracked_of_empty rfl) _ hs
    have hframe : s = Scopes.empty.withTop s.top :=
      (Grammar.declarations_declares _ _ _ _ hs).frame
    refine ⟨s, hdone, ?_⟩
    rw [hframe]
    rfl
  exact hread p h

/-- Forward declarations are completed. In a program that is read every routine at any depth has a
body and does not wait for one, and its symbol is the path to it. Its declaration part and that of
the main program have come to their ends, and in each the headings of every name are settled.

Wherever the rules come to in a text, accepted or not, the headings of each name have followed the
protocol. The next heading is registered or the text is refused, as its verdict says. A variable, a
constant or a type with a name that has a heading is refused, and so is a part that ends while a
name waits. Names clash within the scope of one part; parameters are in a scope of their own. -/
theorem ofText_headings (text name : String) :
    (∀ p, ofText text name = .ok p → Ends text name [] p.scope ∧
      ∀ path r, (path, r) ∈ p.routines → r.forward = false ∧ r.symbol = ".".intercalate path ∧
        ∃ body, r.body = some body ∧ Ends text name path body.scope) ∧
    ∀ place path s c gs, Reaches text name place path s c gs →
      (∀ n, Protocol (Heading.of n gs) (s.top.get? n)) ∧
      (∀ isFunction c₁ g c₂, place = .any → Starts path s c isFunction c₁ g c₂ →
        ∃ v, g.Verdict (Heading.of g.name gs) (s.top.get? g.name) v ∧ match v with
          | none => ∃ s', Grammar.register s g.name g.routine g.forward = .ok s'
          | some e => ofText text name = .error ⟨g.routine.position, .semantic e⟩) ∧
      (∀ sec t n d, place = .more sec → Grammar.sectionDeclaration sec s c = .ok t →
        (n, d) ∈ t.value.entries → Heading.of n gs ≠ [] →
        ∃ m d', (m, d') ∈ t.value.entries ∧
          ofText text name = .error ⟨d'.position, .semantic (.duplicateDeclaration m)⟩) ∧
      (∀ n f, place = .any → AtEnd c → Heading.of n gs = [f] → f.forward = true →
        ∃ f' ∈ gs, f'.forward = true ∧ Heading.of f'.name gs = [f'] ∧ ofText text name =
          .error ⟨f'.routine.position, .semantic (.forwardWithoutBody f'.name)⟩) := by
  constructor
  · intro p hp
    obtain ⟨s, hdone, hscope⟩ := ofText_done hp
    refine ⟨hscope ▸ hdone.ends, fun path r hr => ?_⟩
    obtain ⟨E, -, hchecked⟩ := (ofText_checked hp).1.of_mem_routines hr
    -- a routine of the list stands in the scope of a part, whose names are all finished
    obtain ⟨n, q, hq, hmem⟩ := mem_preorderOfEntries.1 hr
    rw [hscope] at hq
    cases (hdone.finished n q hq).of_mem_preorder hmem with
    | @intro _ _ body hf hb he =>
      cases hchecked with
      | intro hsymbol => exact ⟨hf, hsymbol, body, hb, he⟩
  · intro place path s c gs hr
    have h := hr.tracked
    refine ⟨h.protocol, ?_, ?_, ?_⟩
    · -- the next heading
      rintro isFunction c₁ g c₂ rfl hg
      obtain ⟨v, hv, hregister⟩ := h.exists_verdict hg.sound
      refine ⟨v, hv, ?_⟩
      cases v with
      | none => exact hregister
      | some e => exact hr.fails (.routine hg (Grammar.routine_error_of_register hg hregister))
    · -- a section that takes a name with a heading
      rintro sec t n d rfl hd hm hn
      obtain ⟨m, d', hm', he⟩ := Grammar.declareAll_taken hm (h.contains_of_ne_nil hn)
      refine ⟨m, d', hm', hr.fails (.inl ?_)⟩
      rw [Grammar.sectionDeclarations]
      exact Read.fails_later hd (Read.fails_here he _)
    · -- a part that ends while a name waits
      rintro n f rfl hc hn hf
      obtain ⟨f', hf', hforward, hof, he⟩ := h.checkForwards_error hf hn
      refine ⟨f', hf', hforward, hof, hr.fails ?_⟩
      show Grammar.declarations path s c = _
      rw [Grammar.declarations]
      exact Read.fails_later hc.noSection
        (Read.fails_later hc.noRoutine (Read.fails_here he _))

/-- The first two headings of a text that starts with two procedures, and reading up to the second
of them. -/
def twoHeadings (text : String) : Read (Option (Heading × Heading)) := do
  let c₀ ← Cursor.ofText text
  let ⟨_, c, _⟩ ← Grammar.header "t" c₀
  match ← c.accept Grammar.routine? with
  | some ⟨(false, _), c₁, _⟩ =>
    let ⟨(n, r), c₂, _⟩ ← Grammar.heading [] .empty false c₁
    let ⟨s, c₃, _⟩ ← Grammar.routine [] .empty false c₁
    match ← c₃.accept Grammar.routine? with
    | some ⟨(false, _), c₄, _⟩ =>
      let ⟨(m, q), c₅, _⟩ ← Grammar.heading [] s false c₄
      return some (⟨n, r, c₂.seesKeyword .kwForward⟩, ⟨m, q, c₅.seesKeyword .kwForward⟩)
    | _ => return none
  | _ => return none

/-- The rules come to the second heading. -/
theorem reaches_twoHeadings {text : String} {f g : Heading}
    (h : twoHeadings text = .ok (some (f, g))) : ∃ s c c₁ c₂,
      Reaches text "t" .any [] s c [f] ∧ Starts [] s c false c₁ g c₂ := by
  obtain ⟨c₀, hc, h⟩ := ok_of_bind h
  obtain ⟨⟨_, c, _⟩, hh, h⟩ := ok_of_bind h
  obtain ⟨o, hk, h⟩ := ok_of_bind h
  rcases o with _ | ⟨⟨_ | _, _⟩, c₁, _⟩
  · cases h
  · obtain ⟨⟨⟨n, r⟩, c₂, _⟩, hf, h⟩ := ok_of_bind h
    obtain ⟨⟨s, c₃, _⟩, hd, h⟩ := ok_of_bind h
    obtain ⟨o, hk', h⟩ := ok_of_bind h
    rcases o with _ | ⟨⟨_ | _, _⟩, c₄, _⟩
    · cases h
    · obtain ⟨⟨⟨m, q⟩, c₅, _⟩, hg, h⟩ := ok_of_bind h
      cases h
      have hfirst : Starts [] .empty c false c₁ ⟨n, r, c₂.seesKeyword .kwForward⟩ c₂ :=
        ⟨⟨_, _, hk⟩, ⟨_, hf⟩, rfl⟩
      exact ⟨s, c₃, c₄, c₅, .routine (.start hc hh) hfirst hd, ⟨_, _, hk'⟩, ⟨_, hg⟩, rfl⟩
    · cases h
  · cases h

/-- Every routine of a program with an inner routine is complete. A definition with a parameter that
its `forward` heading has not, and a second `forward` heading, are refused. -/
theorem ofText_headings_nested :
    (∃ p, ofText ("procedure b(x: integer); forward; procedure a; procedure b; begin end; " ++
        "begin b end; procedure B(X: integer); begin a end; begin a end.") "t" = .ok p ∧
      (p.routines.map Prod.fst == [["b"], ["a"], ["a", "b"]]) = true ∧
      ∀ path r, (path, r) ∈ p.routines → r.forward = false ∧
        r.symbol = ".".intercalate path ∧ ∃ body, r.body = some body) ∧
    ofText "procedure b; forward; procedure b(x: integer); begin end; begin end." "t" =
      .error ⟨⟨1, 33⟩, .semantic (.forwardMismatch ⟨"b"⟩)⟩ ∧
    ofText "procedure b; forward; procedure b; forward; begin end." "t" =
      .error ⟨⟨1, 33⟩, .semantic (.duplicateDeclaration ⟨"b"⟩)⟩ := by
  refine ⟨?_, ?_, ?_⟩
  · -- the outer and the inner routine have one name, each in its own part
    have hread : ∃ p, ofText ("procedure b(x: integer); forward; procedure a; procedure b; " ++
        "begin end; begin b end; procedure B(X: integer); begin a end; begin a end.") "t" =
          .ok p ∧
        (p.routines.map Prod.fst == [["b"], ["a"], ["a", "b"]]) = true :=
      exists_ofText (by cbv)
    obtain ⟨p, hp, hpaths⟩ := hread
    refine ⟨p, hp, hpaths, fun path r hr => ?_⟩
    obtain ⟨hforward, hsymbol, body, hbody, -⟩ := ((ofText_headings _ "t").1 p hp).2 path r hr
    exact ⟨hforward, hsymbol, body, hbody⟩
  · -- the definition has a parameter more than the heading before it
    let f : Heading := ⟨⟨"b"⟩, ⟨⟨1, 11⟩, "b", .empty, none, none, true⟩, true⟩
    let x : Scope := ⟨[(⟨"x"⟩, .var ⟨1, 35⟩ .integer)]⟩
    let g : Heading := ⟨⟨"b"⟩, ⟨⟨1, 33⟩, "b", x, none, none, true⟩, false⟩
    have htwo : twoHeadings "procedure b; forward; procedure b(x: integer); begin end; begin end." =
        .ok (some (f, g)) := by cbv
    obtain ⟨s, c, c₁, c₂, hr, hg⟩ := reaches_twoHeadings htwo
    obtain ⟨v, hv, hresult⟩ := ((ofText_headings _ "t").2 _ _ _ _ _ hr).2.1 false c₁ g c₂ rfl hg
    have hof : Heading.of g.name [f] = [f] := Heading.of_single rfl
    rw [hof] at hv
    cases hv with
    | completes _ _ hm => exact absurd hm.params.length_eq (by decide)
    | mismatch => exact hresult
    | secondForward _ hforward => cases hforward
    | behindDefinition hforward => cases hforward
  · -- a second heading without a body
    let f : Heading := ⟨⟨"b"⟩, ⟨⟨1, 11⟩, "b", .empty, none, none, true⟩, true⟩
    let g : Heading := ⟨⟨"b"⟩, ⟨⟨1, 33⟩, "b", .empty, none, none, true⟩, true⟩
    have htwo : twoHeadings "procedure b; forward; procedure b; forward; begin end." =
        .ok (some (f, g)) := by cbv
    obtain ⟨s, c, c₁, c₂, hr, hg⟩ := reaches_twoHeadings htwo
    obtain ⟨v, hv, hresult⟩ := ((ofText_headings _ "t").2 _ _ _ _ _ hr).2.1 false c₁ g c₂ rfl hg
    have hof : Heading.of g.name [f] = [f] := Heading.of_single rfl
    rw [hof] at hv
    cases hv with
    | completes _ hforward => cases hforward
    | mismatch _ hforward => cases hforward
    | secondForward => exact hresult
    | behindDefinition hforward => cases hforward

end Program

end MiniPascal
