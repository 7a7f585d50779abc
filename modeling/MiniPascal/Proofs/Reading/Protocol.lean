import MiniPascal.Proofs.Checked.Preorder
import MiniPascal.Proofs.Reading.Headings
import MiniPascal.Proofs.Reading.Program

/-! The protocol of the headings of one name: it is free, it waits for its definition, or it is
defined. -/

namespace MiniPascal

namespace Grammar

open Cursor

/-- What the headings of a name in a declaration part have made of it in the scope of the part: it
is free, or something else than a routine; it waits for its definition; or it has been defined, by a
definition alone or by one that follows a `forward` declaration of the same signature. -/
inductive Protocol : List Heading → Option Declaration → Prop
  | free : Protocol [] none
  | plain {d : Declaration} (hd : ∀ r, d ≠ .routine r) : Protocol [] (some d)
  | waiting {f : Heading} (hf : f.forward = true) : Protocol [f] (some (.routine f.routine))
  | defined {g : Heading} {r : Routine} (hg : g.forward = false) (hr : r.forward = false) :
    Protocol [g] (some (.routine r))
  | completed {f g : Heading} {r : Routine} (hf : f.forward = true) (hg : g.forward = false)
    (hm : f.routine.Matches g.routine) (hr : r.forward = false) :
    Protocol [f, g] (some (.routine r))

/-- The headings that one name may have in a whole declaration part: none; that of one definition;
or that of a `forward` declaration and then that of a definition of the same signature. -/
inductive Settled : List Heading → Prop
  | none : Settled []
  | defined {g : Heading} (hg : g.forward = false) : Settled [g]
  | completed {f g : Heading} (hf : f.forward = true) (hg : g.forward = false)
    (hm : f.routine.Matches g.routine) : Settled [f, g]

/-- No declaration is in front of the cursor. -/
structure AtEnd (c : Cursor) : Prop where
  noSection : c.accept section? = .ok none
  noRoutine : c.accept routine? = .ok none

/-- The rules come to the end of a declaration part with this path and scope, and the headings of
every name there are settled. -/
def Ends (text name : String) (path : List String) (scope : Scope) : Prop :=
  ∃ s c gs, Reaches text name .any path s c gs ∧ AtEnd c ∧ s.top = scope ∧
    ∀ n, Settled (Heading.of n gs)

end Grammar

/-- A routine is complete, with all routines in it, and the rules have come to the end of its
declaration part and of theirs. -/
inductive Routine.Finished (text name : String) : List String → Routine → Prop
  | intro {path : List String} {r : Routine} {body : Block} (hf : r.forward = false)
    (hb : r.body = some body) (he : Grammar.Ends text name path body.scope)
    (hn : ∀ n q, (n, .routine q) ∈ body.scope.entries →
      Finished text name (path ++ [n.canonical]) q) : Finished text name path r

theorem Routine.Finished.of_mem_preorder {text name : String} {path : List String} {r : Routine}
    (h : r.Finished text name path) {e : List String × Routine} (he : e ∈ r.preorder path) :
    e.2.Finished text name e.1 := by
  induction h with
  | @intro path r body hf hb hend hn ih =>
    rw [preorder_eq, hb] at he
    rcases List.mem_cons.1 he with rfl | he
    · exact .intro hf hb hend hn
    · obtain ⟨n, q, hq, he⟩ := mem_preorderOfEntries.1 he
      exact ih n q hq he

namespace Grammar

open Cursor

variable {text name : String} {path : List String} {s s' : Scopes} {gs : List Heading}
  {g : Heading} {m n : Name}

namespace Heading

/-- A heading as it is read: its parameters are variables, and its routine waits for a body. -/
structure Sound (g : Heading) : Prop where
  params : g.routine.params.All Declaration.IsVar
  forward : g.routine.forward = true

theorem of_congr (h : (m == n) = true) (gs : List Heading) : of m gs = of n gs := by
  unfold of
  refine List.filter_congr fun g _ => ?_
  rw [BEq.congr_right h]

theorem of_snoc (gs : List Heading) (g : Heading) (n : Name) :
    of n (gs ++ [g]) = of n gs ++ if g.name == n then [g] else [] := by
  simp only [of, List.filter_append, List.filter_cons, List.filter_nil]

theorem mem_of : g ∈ of n gs ↔ g ∈ gs ∧ (g.name == n) = true := List.mem_filter

end Heading

/-- What holds in a declaration part between two declarations: the names differ and follow the
protocol, a routine waits with its `forward` heading, and all others are finished. -/
structure Tracked (text name : String) (path : List String) (s : Scopes) (gs : List Heading) :
    Prop where
  nodup : (s.top.entries.map fun e => e.1.canonical).Nodup
  protocol : ∀ n, Protocol (Heading.of n gs) (s.top.get? n)
  sound : ∀ g ∈ gs, g.Sound
  waiting : ∀ n r, (n, .routine r) ∈ s.top.entries → r.forward = true → ⟨n, r, true⟩ ∈ gs
  finished : ∀ n r, (n, .routine r) ∈ s.top.entries → r.forward = false →
    r.Finished text name (path ++ [n.canonical])

namespace Protocol

theorem eq_nil (h : Protocol (Heading.of n gs) none) : Heading.of n gs = [] := by
  generalize Heading.of n gs = hs at h
  cases h
  rfl

theorem snoc_of_ne {n : Name} (hne : (g.name == n) = false) {d : Option Declaration}
    (h : Protocol (Heading.of n gs) d) : Protocol (Heading.of n (gs ++ [g])) d := by
  rwa [Heading.of_snoc, hne, if_neg Bool.false_ne_true, List.append_nil]

end Protocol

/-- A declaration part starts without a heading. -/
theorem tracked_of_empty (h : s.top = .empty) : Tracked text name path s [] := by
  refine ⟨?_, ?_, List.forall_mem_nil _, ?_, ?_⟩ <;> rw [h]
  · exact List.nodup_nil
  · exact fun _ => .free
  · exact fun _ _ hr => absurd hr List.not_mem_nil
  · exact fun _ _ hr => absurd hr List.not_mem_nil

namespace Tracked

variable (h : Tracked text name path s gs)
include h

/-- A name that is not declared has no heading. -/
theorem of_eq_nil (hc : s.top.contains n = false) : Heading.of n gs = [] := by
  have hp := h.protocol n
  rw [Scope.get?_eq_none.2 hc] at hp
  exact hp.eq_nil

/-- A variable, a constant or a type takes a name that is free. -/
theorem declare {d : Declaration} (hd : ∀ r, d ≠ .routine r) (hs : s.declare n d = .ok s') :
    Tracked text name path s' gs := by
  obtain ⟨-, hc, rfl⟩ := Scopes.declare_eq_ok hs
  have hmem : ∀ {m r}, (m, Declaration.routine r) ∈ s.top.entries ++ [(n, d)] →
      (m, .routine r) ∈ s.top.entries := by
    intro m r hm
    rcases Scope.mem_push.1 hm with hm | ⟨-, hr⟩
    · exact hm
    · exact absurd hr.symm (hd r)
  refine ⟨?_, ?_, h.sound, ?_, ?_⟩ <;> rw [Scopes.top_withTop]
  · exact Scope.nodup_snoc h.nodup hc
  · intro m
    rw [Scope.get?_push hc]
    by_cases hm : (n == m) = true
    · rw [if_pos hm, ← Heading.of_congr hm, h.of_eq_nil hc]
      exact .plain hd
    · rw [if_neg hm]
      exact h.protocol m
  · exact fun m r hm => h.waiting m r (hmem hm)
  · exact fun m r hm => h.finished m r (hmem hm)

theorem declareAll {scope : Scope} (hp : scope.All fun d => ∀ r, d ≠ .routine r)
    (hs : Grammar.declareAll s scope = .ok s') : Tracked text name path s' gs := by
  have hstep : ∀ {s s' : Scopes} {n : Name} {d : Declaration}, Tracked text name path s gs →
      (∀ r, d ≠ .routine r) → s.declare n d = .ok s' → Tracked text name path s' gs :=
    fun h hd hs => h.declare hd hs
  exact declareAll_keeps hstep h hp s' hs

/-- A `forward` heading takes a name that is free. -/
theorem forward (hg : g.Sound) (hf : g.forward = true)
    (hs : register s g.name g.routine true = .ok s') :
    Tracked text name path s' (gs ++ [g]) := by
  rcases Declares.register_cases hs with ⟨hc, rfl⟩ | ⟨-, hfalse, -⟩
  -- only a definition can take a name that waits
  swap
  · cases hfalse
  refine ⟨?_, ?_, ?_, ?_, ?_⟩
  · rw [Scopes.top_withTop]
    exact Scope.nodup_snoc h.nodup hc
  · intro m
    rw [Scopes.top_withTop, Scope.get?_push hc]
    by_cases hm : (g.name == m) = true
    · rw [Heading.of_snoc, if_pos hm, if_pos hm, ← Heading.of_congr hm, h.of_eq_nil hc]
      exact .waiting hf
    · rw [if_neg hm]
      exact (h.protocol m).snoc_of_ne (Bool.eq_false_iff.2 hm)
  · exact List.forall_mem_append.2 ⟨h.sound, List.forall_mem_singleton.2 hg⟩
  · intro m r hm hw
    rw [Scopes.top_withTop] at hm
    rcases Scope.mem_push.1 hm with hm | ⟨rfl, hr⟩
    · exact List.mem_append_left _ (h.waiting m r hm hw)
    · cases hr
      refine List.mem_append_right _ (List.mem_singleton.2 ?_)
      rw [← hf]
  · intro m r hm hw
    rw [Scopes.top_withTop] at hm
    rcases Scope.mem_push.1 hm with hm | ⟨rfl, hr⟩
    · exact h.finished m r hm hw
    · cases hr
      rw [hg.forward] at hw
      cases hw

end Tracked

/-- What holds while the body of a definition is read: its routine is registered, and it will follow
the protocol once it is complete; all other names go on as before. -/
structure Opened (text name : String) (path : List String) (s : Scopes) (gs : List Heading)
    (g : Heading) : Prop where
  nodup : (s.top.entries.map fun e => e.1.canonical).Nodup
  own : ∃ e, s.top.get? g.name = some (.routine e) ∧ ∀ r : Routine, r.forward = false →
    Protocol (Heading.of g.name gs ++ [g]) (some (.routine r))
  others : ∀ n, (g.name == n) = false → Protocol (Heading.of n gs) (s.top.get? n)
  sound : ∀ g ∈ gs, g.Sound
  waiting : ∀ n r, (n, .routine r) ∈ s.top.entries → (g.name == n) = false → r.forward = true →
    ⟨n, r, true⟩ ∈ gs
  finished : ∀ n r, (n, .routine r) ∈ s.top.entries → (g.name == n) = false → r.forward = false →
    r.Finished text name (path ++ [n.canonical])

/-- A definition takes a name that is free, or one that waits for it. -/
theorem Tracked.opened (h : Tracked text name path s gs) (hg : g.Sound) (hf : g.forward = false)
    (hs : register s g.name g.routine false = .ok s') : Opened text name path s' gs g := by
  rcases Declares.register_cases hs with ⟨hc, rfl⟩ | ⟨rfl, -, e, hget, hwait, hsig⟩
  · -- the name is free: all that is new is the entry of the definition
    have hmem : ∀ {m r}, (m, Declaration.routine r) ∈
        s.top.entries ++ [(g.name, .routine g.routine)] → (g.name == m) = false →
        (m, .routine r) ∈ s.top.entries := by
      intro m r hm hne
      rcases Scope.mem_push.1 hm with hm | ⟨rfl, -⟩
      · exact hm
      · rw [BEq.rfl] at hne
        cases hne
    refine ⟨?_, ⟨g.routine, ?_, ?_⟩, ?_, h.sound, ?_, ?_⟩
    · rw [Scopes.top_withTop]
      exact Scope.nodup_snoc h.nodup hc
    · rw [Scopes.top_withTop]
      exact Scope.get?_snoc hc
    · intro r hr
      rw [h.of_eq_nil hc]
      exact .defined hf hr
    · intro m hne
      rw [Scopes.top_withTop, Scope.get?_push hc, hne, if_neg Bool.false_ne_true]
      exact h.protocol m
    · intro m r hm hne
      rw [Scopes.top_withTop] at hm
      exact h.waiting m r (hmem hm hne)
    · intro m r hm hne
      rw [Scopes.top_withTop] at hm
      exact h.finished m r (hmem hm hne)
  · -- the name waits: nothing changes, and the entry that waits is the one to complete
    refine ⟨h.nodup, ⟨e, hget, ?_⟩, fun m _ => h.protocol m, h.sound,
      fun m r hm _ => h.waiting m r hm, fun m r hm _ => h.finished m r hm⟩
    intro r hr
    have hprotocol := h.protocol g.name
    have hsound : ∀ f ∈ Heading.of g.name gs, f.Sound :=
      fun f hm => h.sound f (Heading.mem_of.1 hm).1
    rw [hget] at hprotocol
    generalize Heading.of g.name gs = hs at hprotocol hsound
    cases hprotocol with
    | plain hd => exact absurd rfl (hd e)
    | waiting hw =>
      have hvars := (hsound _ List.mem_cons_self).params
      exact .completed hw hf ((Routine.sameSignature_iff hvars hg.params).1 hsig) hr
    | defined _ hdone =>
      rw [hwait] at hdone
      cases hdone
    | completed _ _ _ hdone =>
      rw [hwait] at hdone
      cases hdone

/-- Behind the body the routine is complete. -/
theorem Opened.closed (h : Opened text name path s gs g) (hg : g.Sound) {inner : Scopes}
    {ss : List Stmt} (hframe : inner = (s.enter g.routine.params).withTop inner.top)
    (hend : Ends text name (path ++ [g.name.canonical]) inner.top)
    (hin : ∀ n q, (n, .routine q) ∈ inner.top.entries →
      q.Finished text name (path ++ [g.name.canonical] ++ [n.canonical])) :
    Tracked text name path (leaveBody inner g.name ss) (gs ++ [g]) := by
  obtain ⟨e, hget, hown⟩ := h.own
  obtain ⟨m₀, hm₀, hn₀⟩ := Scope.get?_mem hget
  -- an entry of the new scope is the completed routine, or it has another name and stands as before
  have hcases : ∀ m r, (m, Declaration.routine r) ∈
      (s.top.modify g.name (.complete ⟨inner.top, ss⟩)).entries →
      (m, .routine r) ∈ s.top.entries ∧ (g.name == m) = false ∨
      m.canonical = g.name.canonical ∧ r = e.complete ⟨inner.top, ss⟩ := by
    intro m r hm
    rcases Scope.mem_complete hm with ⟨hm, hne⟩ | ⟨d, hd, hmn, hr⟩
    · refine .inl ⟨hm, Bool.eq_false_iff.2 fun hb => hne ?_⟩
      exact ((Name.beq_iff _ _).1 hb).symm
    · have hsame := List.inj_on_of_nodup_map h.nodup hd hm₀ (hmn.trans hn₀.symm)
      cases hsame
      cases hr
      exact .inr ⟨hmn, rfl⟩
  have hfinished : (e.complete ⟨inner.top, ss⟩).Finished text name (path ++ [g.name.canonical]) :=
    .intro rfl rfl hend hin
  rw [Declares.leaveBody_enter hframe]
  refine ⟨?_, ?_, ?_, ?_, ?_⟩
  · rw [Scopes.top_withTop, Scope.names_complete]
    exact h.nodup
  · intro m
    rw [Scopes.top_withTop, Scope.get?_modify]
    by_cases hm : (g.name == m) = true
    · rw [if_pos (BEq.symm hm), Heading.of_snoc, if_pos hm, ← Heading.of_congr hm,
        ← Scope.get?_congr hm, hget]
      exact hown (e.complete ⟨inner.top, ss⟩) rfl
    · rw [if_neg fun hb => hm (BEq.symm hb)]
      rw [Bool.not_eq_true] at hm
      exact (h.others m hm).snoc_of_ne hm
  · exact List.forall_mem_append.2 ⟨h.sound, List.forall_mem_singleton.2 hg⟩
  · intro m r hm hw
    rw [Scopes.top_withTop] at hm
    rcases hcases m r hm with ⟨hm, hne⟩ | ⟨-, rfl⟩
    · exact List.mem_append_left _ (h.waiting m r hm hne hw)
    · cases hw
  · intro m r hm hw
    rw [Scopes.top_withTop] at hm
    rcases hcases m r hm with ⟨hm, hne⟩ | ⟨hmn, rfl⟩
    · exact h.finished m r hm hne hw
    · rw [hmn]
      exact hfinished

/-! ### Reading -/

theorem variableGroup_vars {params : Scope} (hp : params.All Declaration.IsVar) (s : Scopes)
    (c : Cursor) :
    Read.Ensures (variableGroup s params c) fun t => t.value.All Declaration.IsVar := by
  unfold variableGroup
  refine .step fun names => .step fun _ => .step fun t => ?_
  have hvar : ∀ p, (Declaration.var p t.value).IsVar := fun p => ⟨p, t.value, rfl⟩
  exact .bind (addVariables_all hp hvar names.value) fun scope h => .pure h

theorem parameterGroups_vars {params : Scope} (hp : params.All Declaration.IsVar) (s : Scopes)
    (c : Cursor) :
    Read.Ensures (parameterGroups s params c) fun t => t.value.All Declaration.IsVar := by
  unfold parameterGroups
  refine .bind (variableGroup_vars hp s c) ?_
  rintro ⟨params, c₁, h₁⟩ hp
  refine .step fun o => ?_
  rcases o with _ | ⟨_, c₂, h₂⟩
  · exact .pure hp
  · exact .bind (parameterGroups_vars hp s c₂) fun t h => .pure h
termination_by c.size

theorem parameters_vars (s : Scopes) (c : Cursor) :
    Read.Ensures (parameters s c) fun t => t.value.All Declaration.IsVar := by
  have hempty : Scope.empty.All Declaration.IsVar := List.forall_mem_nil _
  unfold parameters
  refine .step fun o => ?_
  rcases o with _ | ⟨_, c₁, h₁⟩
  · exact .pure hempty
  · dsimp only
    split
    · exact .step fun _ => .pure hempty
    · refine .bind (parameterGroups_vars hempty s c₁) ?_
      rintro ⟨params, c₂, h₂⟩ hp
      exact .step fun _ => .pure hp

theorem heading_sound (path : List String) (s : Scopes) (isFunction : Bool) (c : Cursor) :
    Read.Ensures (heading path s isFunction c) fun t =>
      t.value.2.params.All Declaration.IsVar ∧ t.value.2.forward = true := by
  unfold heading
  refine .step fun name => ?_
  refine .bind (parameters_vars s name.rest) fun params hp => ?_
  exact .step fun _ => .step fun _ => .pure ⟨hp, rfl⟩

section

variable {c c₁ c₂ : Cursor} {isFunction : Bool}

theorem Starts.sound (h : Starts path s c isFunction c₁ g c₂) : g.Sound := by
  obtain ⟨hlt, hh⟩ := h.heading
  obtain ⟨hparams, hforward⟩ := heading_sound path s isFunction c₁ _ hh
  exact ⟨hparams, hforward⟩

/-- A routine that is read has a heading. -/
theorem exists_starts {t : Taken c (Bool × Token)} (hk : c.accept routine? = .ok (some t))
    {t' : Taken t.rest Scopes} (hd : routine path s t.value.1 t.rest = .ok t') :
    ∃ g c₂, Starts path s c t.value.1 t.rest g c₂ := by
  obtain ⟨⟨isFunction, token⟩, c₁, h₁⟩ := t
  cases hh : heading path s isFunction c₁ with
  | error e =>
    rw [routine, Read.fails_here hh] at hd
    cases hd
  | ok t =>
    obtain ⟨⟨n, r⟩, c₂, h₂⟩ := t
    exact ⟨⟨n, r, c₂.seesKeyword .kwForward⟩, c₂, ⟨token, h₁, hk⟩, ⟨h₂, hh⟩, rfl⟩

end

theorem sectionDeclarations_tracked (sec : Section) {s : Scopes} {c : Cursor}
    (hr : Reaches text name (.more sec) path s c gs) (h : Tracked text name path s gs) :
    Read.Ensures (sectionDeclarations sec s c) fun t =>
      Reaches text name .any path t.value t.rest gs ∧ Tracked text name path t.value gs := by
  unfold sectionDeclarations
  refine .known ?_
  rintro ⟨scope, c₁, h₁⟩ hd
  refine .known ?_
  intro s₁ hs₁
  have h₁ := h.declareAll (sectionDeclaration_plain sec s c _ hd) hs₁
  have hr₁ := hr.plain hd hs₁
  dsimp only
  split
  · rename_i hk
    rw [if_pos hk] at hr₁
    refine .bind (sectionDeclarations_tracked sec hr₁ h₁) ?_
    rintro ⟨s₂, c₂, h₂⟩ hs₂
    exact .pure hs₂
  · rename_i hk
    rw [if_neg hk] at hr₁
    exact .pure ⟨hr₁, h₁⟩
termination_by c.size

/-- The body of a definition starts with no heading, and with the result of a function. -/
theorem enterBody_tracked {r : Routine} (he : enterBody s n r = .ok s') :
    Tracked text name path s' [] := by
  have hempty : Tracked text name path (s.enter r.params) [] := tracked_of_empty rfl
  rcases Declares.enterBody_cases he with ⟨rfl, -⟩ | ⟨t, -, hd⟩
  · exact hempty
  · refine hempty.declare ?_ hd
    intro q hq
    cases hq

/-- What holds at the end of a declaration part. -/
structure Done (text name : String) (path : List String) (s : Scopes) : Prop where
  ends : Ends text name path s.top
  finished : ∀ n r, (n, .routine r) ∈ s.top.entries → r.Finished text name (path ++ [n.canonical])

theorem Tracked.done (h : Tracked text name path s gs) {c : Cursor}
    (hr : Reaches text name .any path s c gs) (hc : AtEnd c)
    (hd : ∀ n r, (n, .routine r) ∈ s.top.entries → r.forward = false) :
    Done text name path s := by
  refine ⟨⟨s, c, gs, hr, hc, rfl, ?_⟩, fun n r hm => h.finished n r hm (hd n r hm)⟩
  intro n
  have hp := h.protocol n
  have hsound : ∀ f ∈ Heading.of n gs, f.Sound :=
    fun f hm => h.sound f (Heading.mem_of.1 hm).1
  generalize Heading.of n gs = hs at hp hsound
  generalize hget : s.top.get? n = o at hp
  cases hp with
  | free => exact .none
  | plain => exact .none
  | @waiting f =>
    obtain ⟨m, hm, -⟩ := Scope.get?_mem hget
    have hforward := hd m _ hm
    rw [(hsound f List.mem_cons_self).forward] at hforward
    cases hforward
  | defined hg => exact .defined hg
  | completed hf hg hm => exact .completed hf hg hm

mutual

/-- The rules come to the end of every declaration part that is read. -/
theorem declarations_tracked {path : List String} {s : Scopes} {c : Cursor} {gs : List Heading}
    (hr : Reaches text name .any path s c gs) (h : Tracked text name path s gs) :
    Read.Ensures (declarations path s c) fun t => Done text name path t.value := by
  unfold declarations
  refine .known ?_
  intro o hsec
  rcases o with _ | ⟨⟨sec, token⟩, c₁, h₁⟩
  swap
  · refine .bind (sectionDeclarations_tracked sec (hr.enter hsec) h) ?_
    rintro ⟨s₁, c₂, h₂⟩ ⟨hr₁, ht₁⟩
    refine .bind (declarations_tracked hr₁ ht₁) ?_
    rintro ⟨s₂, c₃, h₃⟩ hs₂
    exact .pure hs₂
  refine .known ?_
  intro o hrou
  rcases o with _ | ⟨⟨isFunction, token⟩, c₁, h₁⟩
  swap
  · refine .known ?_
    rintro ⟨s₁, c₂, h₂⟩ hs₁
    obtain ⟨g, c', hg⟩ := exists_starts hrou hs₁
    have ht₁ := routine_tracked hr h hg _ hs₁
    refine .bind (declarations_tracked (hr.routine hg hs₁) ht₁) ?_
    rintro ⟨s₂, c₃, h₃⟩ hs₂
    exact .pure hs₂
  refine .bind (checkForwards_ensures s) fun _ hd => .pure ?_
  exact h.done hr ⟨hsec, hrou⟩ hd
termination_by c.size

/-- A routine that is read leaves the protocol with one heading more. -/
theorem routine_tracked {path : List String} {s : Scopes} {c c₁ c₂ : Cursor} {gs : List Heading}
    {g : Heading} {isFunction : Bool} (hr : Reaches text name .any path s c gs)
    (h : Tracked text name path s gs) (hg : Starts path s c isFunction c₁ g c₂) :
    Read.Ensures (routine path s isFunction c₁) fun t =>
      Tracked text name path t.value (gs ++ [g]) := by
  intro t hd
  rcases hg.cases hd with ⟨hf, hs₁⟩ | ⟨hf, s₁, s₂, inner, ss, hs₁, hs₂, hinner, hvalue⟩
  · exact h.forward hg.sound hf hs₁
  · obtain ⟨hlt, -⟩ := hg.heading
    have hbody := hr.body hg hf hs₁ hs₂
    have hdone := declarations_tracked hbody (enterBody_tracked hs₂) _ hinner
    have hdeclares := declarations_declares _ _ _ _ hinner
    have hframe := ((Declares.enterBody_declares hs₂).trans hdeclares).frame
    rw [hvalue]
    exact (h.opened hg.sound hf hs₁).closed hg.sound hframe hdone.ends hdone.finished
termination_by c₁.size

end

/-- Wherever the rules come to, the headings have followed the protocol. -/
theorem Reaches.tracked {place : Place} {c : Cursor} (hr : Reaches text name place path s c gs) :
    Tracked text name path s gs := by
  induction hr with
  | start => exact tracked_of_empty rfl
  | enter _ _ ih => exact ih
  | plain _ hd hs ih =>
    exact ih.declareAll (sectionDeclaration_plain _ _ _ _ hd) hs
  | routine hr hg hd ih => exact routine_tracked hr ih hg _ hd
  | body _ _ _ _ he => exact enterBody_tracked he

end Grammar

end MiniPascal
