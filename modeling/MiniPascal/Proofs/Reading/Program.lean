import MiniPascal.Proofs.Checked.Stack
import MiniPascal.Proofs.Reading.Scan
import MiniPascal.Proofs.Reading.Statement
import MiniPascal.Proofs.Reading.TypeName

/-! Declarations, routines and programs that are read obey the rules. -/

namespace MiniPascal

namespace Grammar

open Cursor

theorem addVariables_ensures {scope : Scope} (hs : scope.IsParams) {t : Ty} (ht : t.WellFormed)
    {names : List (Located Name)} (hw : ∀ n ∈ names, n.value.IsWord) :
    Read.Ensures (addVariables scope t names) Scope.IsParams := by
  induction names generalizing scope with
  | nil => exact .ok hs
  | cons n names ih =>
    obtain ⟨hn, hnames⟩ := List.forall_mem_cons.1 hw
    refine .bind (Read.ensures_checked _) fun scope' hi => ?_
    obtain ⟨hc, rfl⟩ := Scope.insert_eq_ok hi
    refine ih ⟨hs.toNamed.snoc hn hc, ?_⟩ hnames
    exact List.forall_mem_append.2
      ⟨hs.vars, List.forall_mem_singleton.2 ⟨n.position, t, rfl, ht⟩⟩

theorem constantOf_ensures (e : Expr) :
    Read.Ensures (constantOf e) fun v => ∃ c p, Constant.Fits c ∧ v = .ofConstant c p := by
  unfold constantOf
  refine .bind (Read.ensures_checked _) fun k _ => ?_
  rcases k with n | x | b
  · dsimp only
    split
    · rename_i hn
      exact .pure ⟨.int n, e.position, hn, rfl⟩
    · exact .error
  · exact .pure ⟨.double x, e.position, trivial, rfl⟩
  · exact .pure ⟨.bool b, e.position, trivial, rfl⟩

/-- Declarations that a section can hold. -/
def Plain (scope : Scope) : Prop :=
  ∀ e ∈ scope.entries, e.1.IsWord ∧ e.2.Sound ∧ ∀ r, e.2 ≠ .routine r

theorem plain_of_isParams {scope : Scope} (h : scope.IsParams) : Plain scope := by
  intro e he
  refine ⟨h.words e he, h.sound e he, ?_⟩
  obtain ⟨p, t, hd, -⟩ := h.vars e he
  rw [hd]
  exact nofun

section

variable {s : Scopes} (hs : s.Sound)
include hs

theorem variableGroup_ensures {scope : Scope} (hscope : scope.IsParams) {c : Cursor}
    (hc : c.Spelled) :
    Read.Ensures (variableGroup s scope c) fun t => t.value.IsParams ∧ t.rest.Spelled := by
  unfold variableGroup
  refine .bind (identifiers_spelled hc) ?_
  rintro ⟨names, c₁, h₁⟩ ⟨hw, hc₁⟩
  refine .bind (symbol_spelled hc₁ _) ?_
  rintro ⟨_, c₂, h₂⟩ hc₂
  refine .bind (typeName_wellFormed hs hc₂) ?_
  rintro ⟨t, c₃, h₃⟩ ⟨ht, hc₃⟩
  exact .bind (addVariables_ensures hscope ht hw) fun scope h => .pure ⟨h, hc₃⟩

theorem sectionDeclaration_ensures (sec : Section) {c : Cursor} (hc : c.Spelled) :
    Read.Ensures (sectionDeclaration sec s c) fun t => Plain t.value ∧ t.rest.Spelled := by
  cases sec with
  | vars =>
    show Read.Ensures (variableDeclaration s c) _
    unfold variableDeclaration
    refine .bind (identifiers_spelled hc) ?_
    rintro ⟨names, c₁, h₁⟩ ⟨hw, hc₁⟩
    refine .bind (symbol_spelled hc₁ _) ?_
    rintro ⟨_, c₂, h₂⟩ hc₂
    refine .bind (typeName_wellFormed hs hc₂) ?_
    rintro ⟨t, c₃, h₃⟩ ⟨ht, hc₃⟩
    refine .bind (symbol_spelled hc₃ _) ?_
    rintro ⟨_, c₄, h₄⟩ hc₄
    refine .bind (addVariables_ensures Scope.empty_isParams ht hw) fun scope h => ?_
    exact .pure ⟨plain_of_isParams h, hc₄⟩
  | consts =>
    show Read.Ensures (constantDeclaration s c) _
    unfold constantDeclaration
    refine .bind (identifier_spelled hc) ?_
    rintro ⟨name, c₁, h₁⟩ ⟨hw, hc₁⟩
    refine .bind (symbol_spelled hc₁ _) ?_
    rintro ⟨_, c₂, h₂⟩ hc₂
    refine .bind (expression_checked hs hc₂) ?_
    rintro ⟨e, c₃, h₃⟩ ⟨_, hc₃⟩
    refine .bind (constantOf_ensures e) fun v hv => ?_
    refine .bind (symbol_spelled hc₃ _) ?_
    rintro ⟨_, c₄, h₄⟩ hc₄
    refine .pure ⟨?_, hc₄⟩
    exact List.forall_mem_singleton.2 ⟨hw, hv, nofun⟩
  | types =>
    show Read.Ensures (typeDeclaration s c) _
    unfold typeDeclaration
    refine .bind (identifier_spelled hc) ?_
    rintro ⟨name, c₁, h₁⟩ ⟨hw, hc₁⟩
    refine .bind (symbol_spelled hc₁ _) ?_
    rintro ⟨_, c₂, h₂⟩ hc₂
    refine .bind (typeName_wellFormed hs hc₂) ?_
    rintro ⟨t, c₃, h₃⟩ ⟨ht, hc₃⟩
    refine .bind (symbol_spelled hc₃ _) ?_
    rintro ⟨_, c₄, h₄⟩ hc₄
    refine .pure ⟨?_, hc₄⟩
    exact List.forall_mem_singleton.2 ⟨hw, ht, nofun⟩

theorem parameterGroups_ensures {params : Scope} (hp : params.IsParams) {c : Cursor}
    (hc : c.Spelled) :
    Read.Ensures (parameterGroups s params c) fun t => t.value.IsParams ∧ t.rest.Spelled := by
  unfold parameterGroups
  refine .bind (variableGroup_ensures hs hp hc) ?_
  rintro ⟨params, c₁, h₁⟩ ⟨hp, hc₁⟩
  refine .bind (acceptSymbol_spelled hc₁ _) fun o ho => ?_
  rcases o with _ | ⟨_, c₂, h₂⟩
  · exact .pure ⟨hp, hc₁⟩
  · refine .bind (parameterGroups_ensures hp (ho _ rfl)) ?_
    rintro ⟨params, c₃, h₃⟩ h
    exact .pure h
termination_by c.size

theorem parameters_ensures {c : Cursor} (hc : c.Spelled) :
    Read.Ensures (parameters s c) fun t => t.value.IsParams ∧ t.rest.Spelled := by
  unfold parameters
  refine .bind (acceptSymbol_spelled hc _) fun o ho => ?_
  rcases o with _ | ⟨_, c₁, h₁⟩
  · exact .pure ⟨Scope.empty_isParams, hc⟩
  · have hc₁ := ho _ rfl
    dsimp only
    split
    · refine .bind (symbol_spelled hc₁ _) ?_
      rintro ⟨_, c₂, h₂⟩ hc₂
      exact .pure ⟨Scope.empty_isParams, hc₂⟩
    · refine .bind (parameterGroups_ensures hs Scope.empty_isParams hc₁) ?_
      rintro ⟨params, c₂, h₂⟩ ⟨hp, hc₂⟩
      refine .bind (symbol_spelled hc₂ _) ?_
      rintro ⟨_, c₃, h₃⟩ hc₃
      exact .pure ⟨hp, hc₃⟩

theorem resultType_ensures (isFunction : Bool) {c : Cursor} (hc : c.Spelled) :
    Read.Ensures (resultType s isFunction c) fun t =>
      (∀ u ∈ t.value, u.WellFormed) ∧ t.rest.Spelled := by
  unfold resultType
  split
  · refine .bind (symbol_spelled hc _) ?_
    rintro ⟨_, c₁, h₁⟩ hc₁
    refine .bind (typeName_wellFormed hs hc₁) ?_
    rintro ⟨t, c₂, h₂⟩ ⟨ht, hc₂⟩
    refine .pure ⟨?_, hc₂⟩
    intro u hu
    cases hu
    exact ht
  · exact .pure ⟨nofun, hc⟩

end

/-! ### Routines -/

theorem ownName_intercalate {path : List String} {w : String} (hw : '.' ∉ w.toList) :
    Lowering.ownName (".".intercalate (path ++ [w])) = w := by
  have htail : ∀ pre : List Char, (pre = [] ∨ ∃ pre', pre = pre' ++ ['.']) →
      String.ofList ((pre ++ w.toList).reverse.takeWhile (· ≠ '.')).reverse = w := by
    intro pre hpre
    have hall : ∀ a ∈ w.toList.reverse, decide (a ≠ '.') = true := by
      intro a ha
      simp only [List.mem_reverse] at ha
      exact decide_eq_true fun he => hw (he ▸ ha)
    rw [List.reverse_append, List.takeWhile_append_of_pos hall]
    rcases hpre with rfl | ⟨pre', rfl⟩ <;> simp
  unfold Lowering.ownName
  rcases path with _ | ⟨p, ps⟩
  · simpa using htail [] (.inl rfl)
  · rw [String.intercalate_append_of_ne_nil (by simp) (by simp), String.toList_append,
      String.toList_append, String.intercalate_singleton]
    exact htail _ (.inr ⟨_, rfl⟩)

theorem heading_ensures (path : List String) {s : Scopes} (hs : s.Sound) (isFunction : Bool)
    {c : Cursor} (hc : c.Spelled) :
    Read.Ensures (heading path s isFunction c) fun t =>
      (t.value.1.IsWord ∧ t.value.2.forward = true ∧
        ∀ E, t.value.2.Declared E path t.value.1) ∧ t.rest.Spelled := by
  unfold heading
  refine .bind (identifier_spelled hc) ?_
  rintro ⟨name, c₁, h₁⟩ ⟨hw, hc₁⟩
  refine .bind (parameters_ensures hs hc₁) ?_
  rintro ⟨params, c₂, h₂⟩ ⟨hp, hc₂⟩
  refine .bind (resultType_ensures hs isFunction hc₂) ?_
  rintro ⟨returns, c₃, h₃⟩ ⟨hr, hc₃⟩
  refine .bind (symbol_spelled hc₃ _) ?_
  rintro ⟨_, c₄, h₄⟩ hc₄
  refine .pure ⟨⟨hw, rfl, ?_⟩, hc₄⟩
  exact fun E => ⟨hp, hr, rfl, ownName_intercalate hw.dot_notMem, fun _ => rfl, nofun⟩

/-- What holds when the heading of a routine has been registered: the scope has a routine of that
name and signature, which waits for its body if this is its definition. -/
structure Registered (path : List String) (s : Scopes) (n : Name) (r : Routine) (forward : Bool) :
    Prop where
  ready : s.Ready path
  found : ∃ m e, (m, .routine e) ∈ s.top.entries ∧ m.canonical = n.canonical ∧
    SameVars e.params.vars r.params.vars ∧
    (∀ t ∈ e.returns, ∃ u, r.returns = some u ∧ t.sameShape u = true) ∧
    (forward = false → e.forward = true)

theorem register_ensures {path : List String} {s : Scopes} (hs : s.Ready path) {n : Name}
    {r : Routine} (hn : n.IsWord) (hf : r.forward = true) (hr : ∀ E, r.Declared E path n)
    (forward : Bool) :
    Read.Ensures (register s n r forward) fun s' =>
      Registered path s' n r forward ∧ s.Grown s' ∧
        labelsOfEntries s'.top.entries = labelsOfEntries s.top.entries := by
  unfold register
  split
  · -- a new name
    intro s' h
    obtain ⟨hc, rfl⟩ := Scopes.insertTop_eq_ok (Read.checked_eq_ok.1 h)
    have hsound : (Declaration.routine r).Sound := trivial
    have hdecl : ∀ q, Declaration.routine r = .routine q → q.Declared s.environment path n := by
      rintro _ ⟨⟩
      exact hr _
    obtain ⟨hready, hgrown⟩ := hs.push hn hsound hc nofun hdecl
    have hlabels : (Declaration.routine r).labels = 0 := by
      have hb := (hr s.environment).waiting hf
      obtain ⟨_, _, _, _, _, _⟩ := r
      cases hb
      rfl
    refine ⟨⟨hready, n, r, ?_, rfl, sameVars_refl _, ?_, fun _ => hf⟩, hgrown, ?_⟩
    · rw [Scopes.top_withTop]
      simp
    · exact fun t ht => ⟨t, ht, t.sameShape_refl⟩
    · rw [Scopes.top_withTop, labelsOfEntries_append, labelsOfEntries, labelsOfEntries, hlabels]
      rfl
  · -- a name that waits for its definition
    rename_i existing hg
    obtain ⟨m, hm, hmn⟩ := Scope.get?_mem hg
    split
    · rename_i hw
      rw [Bool.and_eq_true] at hw
      split
      · rename_i hsig
        refine .ok ⟨⟨hs, m, existing, hm, hmn, Routine.sameVars_of_sameSignature hsig, ?_,
          fun _ => hw.1⟩, .refl s, rfl⟩
        exact fun t ht => Routine.sameResult_of_sameSignature hsig ht
      · exact .error
    · exact .error
  · exact .error

theorem enterBody_ensures {path : List String} {s : Scopes} (hs : s.Ready path) {n : Name}
    {r : Routine} (hn : n.IsWord) (hr : r.Declared s.environment path n) :
    Read.Ensures (enterBody s n r) fun s' => s'.Ready (path ++ [n.canonical]) ∧
      (s.enter r.params).Grown s' ∧
      labelsOfEntries s'.top.entries = 0 ∧ ∀ t ∈ r.returns, (n, t) ∈ s'.top.vars := by
  have hready : (s.enter r.params).Ready (path ++ [n.canonical]) :=
    ⟨hs.sound.enter hr.params.sound, Scope.empty_named, fun _ hv => absurd hv List.not_mem_nil,
      fun _ _ hq => absurd hq List.not_mem_nil⟩
  unfold enterBody
  dsimp only
  split
  · rename_i h
    exact .ok ⟨hready, .refl _, rfl, fun t ht => by rw [h] at ht; cases ht⟩
  · rename_i t h
    intro s' hd
    have hsound : (Declaration.var r.position t).Sound := hr.returns t h
    have hvar : ∀ q, Declaration.var r.position t ≠ .routine q := by
      intro q hq
      cases hq
    obtain ⟨hready', hgrown, htop⟩ := hready.declare hn hsound hvar (Read.checked_eq_ok.1 hd)
    refine ⟨hready', hgrown, by rw [htop]; rfl, fun u hu => ?_⟩
    rw [h] at hu
    cases hu
    exact Scope.mem_vars.2 ⟨r.position, by rw [htop]; simp⟩

/-- The context of a routine's statements is that of its scopes, where the parameters may be those
of an earlier heading. -/
theorem context_le_ofScopes {s : Scopes} {l : Level} {ls : List Level} (h : s.levels = l :: ls)
    {params : Scope} (hparams : params.IsParams) (hl : l.params.IsParams)
    (hp : SameVars params.vars l.params.vars) :
    s.context.Le (.ofScopes s.environment params l.locals) where
  var st n t hv := by
    rcases Scopes.context_var_cases hv with ⟨rfl, hm, hnone⟩ | ⟨rfl, l', ls', hl, m, hm, hn⟩
    · -- the two headings declare the same names, so neither declares this one
      obtain ⟨hps, hlocals⟩ := Level.get?_eq_none.1 (hnone l (h ▸ List.mem_cons_self))
      rw [hl.contains_eq_false, ← hp.canonical, ← hparams.contains_eq_false] at hps
      exact ⟨hm, hps, hlocals⟩
    · rw [h] at hl
      cases hl
      rcases hm with hm | hm
      · exact ⟨m, t, List.mem_append_right _ hm, hn, t.sameShape_refl⟩
      · obtain ⟨⟨m', u⟩, hv, hmn, hu⟩ := hp.exists_left hm
        exact ⟨m', u, List.mem_append_left _ hv, hmn.trans hn, hu⟩
  routine symbol params returns := by
    rintro ⟨n, r, hr, rfl, rfl, rfl⟩
    exact Scopes.lookupRoutine_mem hr

theorem distinct_append {params : List (Name × Ty)} {ps locals : Scope} (hps : ps.IsParams)
    (hw : ∀ v ∈ params, v.1.IsWord) (hp : SameVars params ps.vars) (hl : locals.Named)
    (ha : ∀ v ∈ locals.vars, ps.contains v.1 = false) : Distinct (params ++ locals.vars) where
  words := List.forall_mem_append.2 ⟨hw, hl.distinct.words⟩
  nodup := by
    rw [List.map_append, hp.canonical, List.nodup_append]
    refine ⟨hps.distinct.nodup, hl.distinct.nodup, ?_⟩
    simp only [List.mem_map]
    rintro _ ⟨⟨m, t⟩, hm, rfl⟩ _ ⟨v, hv, rfl⟩
    obtain ⟨p, hp⟩ := Scope.mem_vars.1 hm
    have := Scope.contains_eq_false.1 (ha v hv) (m, .var p t) hp
    exact this

/-- A routine that has got its body obeys the rules. -/
theorem complete_checked {path : List String} {s inner : Scopes} {n : Name} {r e : Routine}
    {ss : List Stmt} (he : e.Declared s.environment path n) (hr : r.params.IsParams)
    (hp : SameVars e.params.vars r.params.vars)
    (hret : ∀ t ∈ e.returns, ∃ u, r.returns = some u ∧ t.sameShape u = true)
    (hin : inner.Ready (path ++ [n.canonical])) (hgrown : (s.enter r.params).Grown inner)
    (hres : ∀ t ∈ r.returns, ∃ m, (m, t) ∈ inner.top.vars ∧ m.canonical = n.canonical)
    (hdone : ∀ m q, (m, .routine q) ∈ inner.top.entries → q.forward = false)
    (hss : ∀ st ∈ ss, st.Checked inner.context false) :
    (e.complete ⟨inner.top, ss⟩).Checked s.environment (path ++ [n.canonical]) := by
  have hinner : inner = ⟨s.globals, ⟨r.params, inner.top⟩ :: s.levels⟩ := hgrown.frame
  have hlevels : inner.levels = ⟨r.params, inner.top⟩ :: s.levels := congrArg Scopes.levels hinner
  have hE : inner.environment.Le (s.environment.inside inner.top) := by
    rw [hinner]
    exact Scopes.environment_enter hr
  -- the statements were read with the parameters of the definition, the routine keeps those of its
  -- first heading
  have hctx := context_le_ofScopes hlevels he.params hr hp
  refine .intro he.symbol rfl ?_ hin.named ?_
    (fun st hst => ((hss st hst).mono hctx).mono (Context.ofScopes_mono hE _ _)) ?_
  · refine distinct_append hr he.params.distinct.words hp hin.named ?_
    rw [← show inner.params = r.params by rw [hinner]; rfl]
    exact hin.apart
  · intro t ht
    obtain ⟨u, hu, hshape⟩ := hret t ht
    obtain ⟨m, hm, hmn⟩ := hres u hu
    exact ⟨(m, u), hm, hmn.trans he.own.symm, hshape⟩
  · exact fun m q hq => ((hin.routines m q hq).checked (hdone m q hq)).mono hE

/-- Leaving the body of a routine completes the routine and changes nothing else. -/
theorem leaveBody_ready {path : List String} {s inner : Scopes} {n : Name} {r : Routine}
    {ss : List Stmt} (hs : Registered path s n r false) (hr : r.params.IsParams)
    (hin : inner.Ready (path ++ [n.canonical])) (hgrown : (s.enter r.params).Grown inner)
    (hres : ∀ t ∈ r.returns, (n, t) ∈ inner.top.vars)
    (hdone : ∀ m q, (m, .routine q) ∈ inner.top.entries → q.forward = false)
    (hss : ∀ st ∈ ss, st.Checked inner.context false) :
    (leaveBody inner n ss).Ready path ∧ s.Grown (leaveBody inner n ss) ∧
      labelsOfEntries (leaveBody inner n ss).top.entries =
        labelsOfEntries s.top.entries + (Stmt.labelsOfAll ss +
          labelsOfEntries inner.top.entries) := by
  obtain ⟨m, e, hm, hmn, hp, hret, hw⟩ := hs.found
  have hdecl := hs.ready.routines m e hm
  have hleave : leaveBody inner n ss =
      s.withTop (s.top.modify n (.complete ⟨inner.top, ss⟩)) := by
    rw [hgrown.frame]
    rfl
  -- completing a routine changes neither variables nor signatures
  have hvars : (s.top.modify n (.complete ⟨inner.top, ss⟩)).vars = s.top.vars :=
    Scope.vars_complete _
  have hsub : s.top.vars ⊆ (s.top.modify n (.complete ⟨inner.top, ss⟩)).vars := by
    rw [hvars]
    exact fun _ => id
  have hchecked := complete_checked hdecl hr hp hret (hmn ▸ hin) hgrown
    (fun t ht => ⟨n, hres t ht, hmn.symm⟩) hdone hss
  have hsig : s.top.signatures ⊆ (s.top.modify n (.complete ⟨inner.top, ss⟩)).signatures := by
    rw [Scope.signatures_complete]
    exact fun _ => id
  have hg := Scopes.environment_withTop hsub hsig
  rw [hleave]
  refine ⟨⟨hs.ready.sound.withTop ?_, ?_, ?_, ?_⟩, .withTop hsub, ?_⟩
  · rintro ⟨m', d⟩ hd
    rcases Scope.mem_complete hd with ⟨hd, -⟩ | ⟨d', hd', -, rfl⟩
    · exact hs.ready.sound.top _ hd
    · have := hs.ready.sound.top _ hd'
      cases d' <;> exact this
  · rw [Scopes.top_withTop]
    exact hs.ready.named.complete
  · rw [Scopes.top_withTop, Scopes.params_withTop, hvars]
    exact hs.ready.apart
  · intro m' q hq
    rw [Scopes.top_withTop] at hq
    rcases Scope.mem_complete hq with ⟨hq, -⟩ | ⟨d', hd, hn', hq⟩
    · exact (hs.ready.routines m' q hq).mono hg
    · have hde := hs.ready.named.eq_of_canonical hd hm (hn'.trans hmn.symm)
      subst hde
      cases hq
      have hname : m.canonical = m'.canonical := hmn.trans hn'.symm
      exact ⟨hdecl.params, hdecl.returns, hname ▸ hdecl.symbol, hdecl.own.trans hname, nofun,
        fun _ => hname ▸ hchecked.mono hg⟩
  · rw [Scopes.top_withTop, Scope.labelsOfEntries_complete hs.ready.named hm hmn
      (hdecl.waiting (hw rfl))]

/-! ### Declarations -/

theorem declareAll_ensures {path : List String} {s : Scopes} (hs : s.Ready path) {scope : Scope}
    (hp : Plain scope) :
    Read.Ensures (declareAll s scope) fun s' => s'.Ready path ∧ s.Grown s' ∧
      labelsOfEntries s'.top.entries = labelsOfEntries s.top.entries := by
  unfold declareAll
  split
  · rename_i s' h
    exact .ok (hs.declareAll hp h)
  · exact .error

theorem sectionDeclarations_ensures (sec : Section) {path : List String} {s : Scopes}
    (hs : s.Ready path) {c : Cursor} (hc : c.Spelled) :
    Read.Ensures (sectionDeclarations sec s c) fun t => (t.value.Ready path ∧ s.Grown t.value ∧
      labelsOfEntries t.value.top.entries = labelsOfEntries s.top.entries) ∧ t.rest.Spelled := by
  unfold sectionDeclarations
  refine .bind (sectionDeclaration_ensures hs.sound sec hc) ?_
  rintro ⟨scope, c₁, h₁⟩ ⟨hp, hc₁⟩
  refine .bind (declareAll_ensures hs hp) ?_
  rintro s₁ ⟨hs₁, hg₁, hl₁⟩
  dsimp only
  split
  · refine .bind (sectionDeclarations_ensures sec hs₁ hc₁) ?_
    rintro ⟨s₂, c₂, h₂⟩ ⟨⟨hs₂, hg₂, hl₂⟩, hc₂⟩
    exact .pure ⟨⟨hs₂, hg₁.trans hg₂, hl₂.trans hl₁⟩, hc₂⟩
  · exact .pure ⟨⟨hs₁, hg₁, hl₁⟩, hc₁⟩
termination_by c.size

/-- What holds of the scopes behind declarations that have been read from one cursor up to
another. -/
structure DeclaredBetween (path : List String) (s s' : Scopes) (c rest : Cursor) : Prop where
  ready : s'.Ready path
  grown : s.Grown s'
  spelled : rest.Spelled
  labels : labelsOfEntries s'.top.entries + 3 * rest.size ≤
    labelsOfEntries s.top.entries + 3 * c.size

theorem checkForwards_ensures (s : Scopes) :
    Read.Ensures (checkForwards s) fun _ =>
      ∀ n r, (n, .routine r) ∈ s.top.entries → r.forward = false := by
  unfold checkForwards
  split
  · exact .error
  · rename_i h
    refine .ok fun n r hr => ?_
    simpa using List.find?_eq_none.1 h _ (Scope.mem_routines.2 hr)

mutual

/-- The declarations in front of a `begin` keep the invariant of the scopes, and no routine among
them stays without a body. -/
theorem declarations_ensures (path : List String) {s : Scopes} (hs : s.Ready path) {c : Cursor}
    (hc : c.Spelled) :
    Read.Ensures (declarations path s c) fun t => DeclaredBetween path s t.value c t.rest ∧
      ∀ n r, (n, .routine r) ∈ t.value.top.entries → r.forward = false := by
  unfold declarations
  refine .bind (accept_spelled hc _) fun o ho => ?_
  rcases o with _ | ⟨⟨sec, _⟩, c₁, h₁⟩
  swap
  · refine .bind (sectionDeclarations_ensures sec hs (ho _ rfl).2.2) ?_
    rintro ⟨s₁, c₂, h₂⟩ ⟨⟨hs₁, hg₁, hl₁⟩, hc₂⟩
    refine .bind (declarations_ensures path hs₁ hc₂) ?_
    rintro ⟨s₂, c₃, h₃⟩ ⟨⟨hs₂, hg₂, hc₃, hl₂⟩, hdone⟩
    have h : DeclaredBetween path s s₂ c c₃ :=
      ⟨hs₂, hg₁.trans hg₂, hc₃, by dsimp only at hl₁ hl₂ h₁ h₂ ⊢; omega⟩
    exact .pure ⟨h, hdone⟩
  refine .bind (accept_spelled hc _) fun o ho => ?_
  rcases o with _ | ⟨⟨isFunction, _⟩, c₁, h₁⟩
  swap
  · refine .bind (routine_ensures path hs isFunction (ho _ rfl).2.2) ?_
    rintro ⟨s₁, c₂, h₂⟩ ⟨hs₁, hg₁, hc₂, hl₁⟩
    refine .bind (declarations_ensures path hs₁ hc₂) ?_
    rintro ⟨s₂, c₃, h₃⟩ ⟨⟨hs₂, hg₂, hc₃, hl₂⟩, hdone⟩
    have h : DeclaredBetween path s s₂ c c₃ :=
      ⟨hs₂, hg₁.trans hg₂, hc₃, by dsimp only at hl₁ hl₂ h₁ ⊢; omega⟩
    exact .pure ⟨h, hdone⟩
  refine .bind (checkForwards_ensures s) fun _ hdone => .pure ⟨?_, hdone⟩
  exact ⟨hs, .refl s, hc, Nat.le_refl _⟩
termination_by c.size

theorem routine_ensures (path : List String) {s : Scopes} (hs : s.Ready path) (isFunction : Bool)
    {c : Cursor} (hc : c.Spelled) :
    Read.Ensures (routine path s isFunction c) fun t =>
      DeclaredBetween path s t.value c t.rest := by
  unfold routine
  refine .bind (heading_ensures path hs.sound isFunction hc) ?_
  rintro ⟨⟨n, r⟩, c₁, h₁⟩ ⟨⟨hn, hf, hr⟩, hc₁⟩
  refine .bind (register_ensures hs hn hf hr _) ?_
  rintro s₁ ⟨hreg, hg₁, hl₁⟩
  dsimp only
  split
  · -- a heading only
    refine .bind (keyword_spelled hc₁ _) ?_
    rintro ⟨_, c₂, h₂⟩ hc₂
    refine .bind (symbol_spelled hc₂ _) ?_
    rintro ⟨_, c₃, h₃⟩ hc₃
    have h : DeclaredBetween path s s₁ c c₃ :=
      ⟨hreg.ready, hg₁, hc₃, by dsimp only at h₃; omega⟩
    exact .pure h
  · -- a definition
    rename_i hforward
    rw [Bool.not_eq_true] at hforward
    rw [hforward] at hreg
    refine .bind (enterBody_ensures hreg.ready hn (hr _)) ?_
    rintro s₂ ⟨hs₂, hg₂, hl₂, hres⟩
    refine .bind (declarations_ensures (path ++ [n.canonical]) hs₂ hc₁) ?_
    rintro ⟨s₃, c₂, h₂⟩ ⟨⟨hs₃, hg₃, hc₂, hl₃⟩, hdone⟩
    refine .bind (compound_checked hs₃.sound false hc₂) ?_
    rintro ⟨ss, c₃, h₃⟩ ⟨hss, hc₃, hlss⟩
    refine .bind (symbol_spelled hc₃ _) ?_
    rintro ⟨_, c₄, h₄⟩ hc₄
    cases hss with | block hss =>
    obtain ⟨hs₄, hg₄, hl₄⟩ := leaveBody_ready hreg (hr s₁.environment).params hs₃ (hg₂.trans hg₃)
      (fun t ht => hg₃.vars (hres t ht)) hdone hss
    have h : DeclaredBetween path s (leaveBody s₃ n ss) c c₄ := by
      refine ⟨hs₄, hg₁.trans hg₄, hc₄, ?_⟩
      simp only [Stmt.labels] at hlss
      dsimp only at hl₃ hl₄ h₄
      omega
    exact .pure h
termination_by c.size

end

theorem header_ensures (name : String) {c : Cursor} (hc : c.Spelled) :
    Read.Ensures (header name c) fun t => t.rest.Spelled := by
  unfold header
  refine .bind (acceptKeyword_spelled hc _) fun o ho => ?_
  rcases o with _ | ⟨_, c₁, h₁⟩
  · exact .pure hc
  · refine .bind (identifier_spelled (ho _ rfl)) ?_
    rintro ⟨id, c₂, h₂⟩ ⟨_, hc₂⟩
    refine .bind (symbol_spelled hc₂ _) ?_
    rintro ⟨_, c₃, h₃⟩ hc₃
    exact .pure hc₃

end Grammar

namespace Program

theorem ofCursor_checked (name : String) {c : Cursor} (hc : c.Spelled) :
    Read.Ensures (ofCursor name c) fun p => p.Checked ∧ p.labels ≤ 3 * c.size := by
  unfold ofCursor
  refine .bind (Grammar.header_ensures name hc) ?_
  rintro ⟨name, c₁, h₁⟩ hc₁
  refine .bind (Grammar.declarations_ensures [] Scopes.empty_ready hc₁) ?_
  rintro ⟨s, c₂, h₂⟩ ⟨⟨hs, hg, hc₂, hl⟩, hdone⟩
  refine .bind (Grammar.compound_checked hs.sound false hc₂) ?_
  rintro ⟨ss, c₃, h₃⟩ ⟨hss, hc₃, hlss⟩
  refine .step ?_
  rintro ⟨_, c₄, h₄⟩
  refine .step fun _ => .pure ?_
  dsimp only at hs hg hl hdone hss hlss h₁ h₂ ⊢
  -- every routine has been left, so the scope of the program is all that is visible
  have hlevels : s.levels = [] := by rw [hg.frame]; rfl
  have htop : s.top = s.globals := by rw [Scopes.top, hlevels]
  rw [htop] at hdone hl
  have hsound := hs.sound.globals
  have hroutines := hs.routines
  have hnamed := hs.named
  rw [htop] at hroutines hnamed
  have henv : s.environment = ⟨s.globals.vars, s.globals.signatures⟩ := by
    simp only [Scopes.environment, Scopes.frames, hlevels, List.flatMap_nil, List.nil_append,
      List.flatMap_singleton]
  have hctx : s.context.Le (.ofScopes s.environment .empty .empty) := by
    refine ⟨fun st n t hv => ?_, fun symbol params returns => ?_⟩
    · rcases Scopes.context_var_cases hv with ⟨rfl, hm, -⟩ | ⟨-, l, ls, hl, -⟩
      · exact ⟨hm, rfl, rfl⟩
      · rw [hlevels] at hl
        cases hl
    · rintro ⟨n, r, hr, rfl, rfl, rfl⟩
      exact Scopes.lookupRoutine_mem hr
  rw [henv] at hctx hroutines
  cases hss with | block hss =>
  refine ⟨⟨hnamed, ?_, ?_, fun st hst => (hss st hst).mono hctx⟩, ?_⟩
  · rintro ⟨n, t⟩ hv
    obtain ⟨p, hp⟩ := Scope.mem_vars.1 hv
    exact hsound _ hp
  · exact fun n r hr => (hroutines n r hr).checked (hdone n r hr)
  · simp only [Stmt.labels] at hlss
    simp only [labels, Scopes.empty, Scopes.top, Scope.empty, labelsOfEntries] at hl ⊢
    omega

/-- A program that has been read obeys the rules, and its code needs no more than three labels for
each character of the text. -/
theorem ofText_checked {text name : String} {p : Program} (h : ofText text name = .ok p) :
    p.Checked ∧ p.labels ≤ 3 * text.length := by
  have hread : Read.Ensures (ofText text name) fun p => p.Checked ∧ p.labels ≤ 3 * text.length := by
    unfold ofText
    refine .bind (Cursor.ofText_ensures text) ?_
    rintro c ⟨hc, hsize⟩
    refine (ofCursor_checked name hc).mono ?_
    rintro p ⟨hp, hl⟩
    refine ⟨hp, ?_⟩
    omega
  exact hread p h

theorem exists_ofText {text name : String} {P : Program → Bool}
    (h : (match ofText text name with
      | .ok p => P p
      | .error _ => false) = true) : ∃ p, ofText text name = .ok p ∧ P p = true := by
  cases hp : ofText text name with
  | ok p =>
    rw [hp] at h
    exact ⟨p, rfl, h⟩
  | error e =>
    rw [hp] at h
    cases h

theorem exists_refusal {text name : String} {P : Located Fault → Bool}
    (h : (match ofText text name with
      | .ok _ => false
      | .error e => P e) = true) : ∃ e, ofText text name = .error e ∧ P e = true := by
  cases he : ofText text name with
  | ok p =>
    rw [he] at h
    cases h
  | error e =>
    rw [he] at h
    exact ⟨e, rfl, h⟩

end Program

end MiniPascal
