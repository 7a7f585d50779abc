import Mathlib.Data.List.Nodup
import MiniPascal.Proofs.Checked.Program
import MiniPascal.Proofs.Checked.Resolution

/-! The visible scopes while declarations are read. -/

namespace MiniPascal

/-- A routine as it stands in a scope under a name: with a body that obeys the rules, or without
one. The path holds the names of the routines around the scope. -/
structure Routine.Declared (E : Environment) (path : List String) (n : Name) (r : Routine) :
    Prop where
  params : r.params.IsParams
  returns : ∀ t ∈ r.returns, t.WellFormed
  symbol : r.symbol = ".".intercalate (path ++ [n.canonical])
  own : Lowering.ownName r.symbol = n.canonical
  waiting : r.forward = true → r.body = none
  checked : r.forward = false → r.Checked E (path ++ [n.canonical])

theorem Routine.Declared.mono {E E' : Environment} (h : E.Le E') {path : List String} {n : Name}
    {r : Routine} (hr : r.Declared E path n) : r.Declared E' path n :=
  { hr with checked := fun hf => (hr.checked hf).mono h }

theorem Scope.get?_eq_none {s : Scope} {n : Name} : s.get? n = none ↔ s.contains n = false := by
  simp only [get?, contains, Option.map_eq_none_iff, List.find?_eq_none, List.any_eq_false]

namespace Scope

variable {s : Scope} {m n : Name}

theorem get?_congr (h : (m == n) = true) (s : Scope) : s.get? m = s.get? n := by
  simp only [get?, BEq.congr_right h]

theorem mem_push {d d' : Declaration} :
    (m, d') ∈ s.entries ++ [(n, d)] ↔ (m, d') ∈ s.entries ∨ m = n ∧ d' = d := by
  rw [List.mem_append, List.mem_singleton, Prod.mk.injEq]

theorem get?_of_mem {d : Declaration} (hn : (s.entries.map fun e => e.1.canonical).Nodup)
    (hm : (n, d) ∈ s.entries) : s.get? n = some d := by
  cases hget : s.get? n with
  | none =>
    have hne : n.canonical ≠ n.canonical := contains_eq_false.1 (get?_eq_none.1 hget) (n, d) hm
    exact absurd rfl hne
  | some d' =>
    obtain ⟨m, hm', hmn⟩ := get?_mem hget
    cases List.inj_on_of_nodup_map hn hm hm' hmn.symm
    rfl

theorem get?_modify {f : Declaration → Declaration} :
    (s.modify n f).get? m = if m == n then (s.get? m).map f else s.get? m := by
  have hname : ∀ e : Name × Declaration, (if e.1 == n then (e.1, f e.2) else e).1 = e.1 := by
    intro e
    split <;> rfl
  simp only [get?, modify, List.find?_map, Function.comp_def, hname, Option.map_map]
  cases hfind : s.entries.find? fun e => e.1 == m with
  | none => simp
  | some e =>
    -- the entry that has been found has the name `m`
    have hm : (e.1 == m) = true := by simpa using List.find?_some hfind
    rw [Option.map_some, BEq.congr_left hm]
    split <;> rfl

end Scope

theorem Level.get?_eq_none {l : Level} {n : Name} :
    l.get? n = none ↔ l.params.contains n = false ∧ l.locals.contains n = false := by
  rw [← Scope.get?_eq_none, ← Scope.get?_eq_none, get?]
  cases l.locals.get? n <;> simp

namespace Scopes

variable {s s' : Scopes} {sc sc' : Scope} {path : List String}

theorem top_withTop : (s.withTop sc).top = sc := by
  obtain ⟨g, _ | ⟨l, ls⟩⟩ := s <;> rfl

theorem withTop_top : s.withTop s.top = s := by
  obtain ⟨g, _ | ⟨l, ls⟩⟩ := s <;> rfl

theorem withTop_withTop : (s.withTop sc).withTop sc' = s.withTop sc' := by
  obtain ⟨g, _ | ⟨l, ls⟩⟩ := s <;> rfl

theorem params_withTop : (s.withTop sc).params = s.params := by
  obtain ⟨g, _ | ⟨l, ls⟩⟩ := s <;> rfl

/-- The variables of the main program and the routines of all visible scopes. -/
def environment (s : Scopes) : Environment :=
  ⟨s.globals.vars, s.frames.flatMap Scope.signatures⟩

/-- A call stands for a routine of the environment. -/
theorem lookupRoutine_mem {n : Located Name} {r : Routine} (h : s.lookupRoutine n = .ok r) :
    r.signature ∈ s.environment.routines := by
  obtain ⟨before, frame, after, hs, hf, -⟩ := innermostRoutine?_eq_some.1 (lookupRoutine_eq_ok.1 h)
  obtain ⟨m, hm, -⟩ := Scope.get?_mem hf
  refine List.mem_flatMap.2 ⟨frame, ?_, Scope.mem_signatures.2 ⟨m, r, hm, rfl⟩⟩
  rw [hs]
  exact List.mem_append_right _ List.mem_cons_self

theorem environment_withTop (hv : s.top.vars ⊆ sc.vars) (hr : s.top.signatures ⊆ sc.signatures) :
    s.environment.Le (s.withTop sc).environment := by
  obtain ⟨g, _ | ⟨l, ls⟩⟩ := s
  · refine ⟨hv, fun σ hσ => ?_⟩
    simp only [environment, frames, withTop, List.flatMap_nil, List.nil_append,
      List.flatMap_singleton] at hσ ⊢
    exact hr hσ
  · refine ⟨fun _ => id, fun σ hσ => ?_⟩
    simp only [environment, frames, withTop, List.flatMap_cons, List.cons_append, List.nil_append,
      List.mem_append] at hσ ⊢
    exact hσ.imp_left fun hσ => hr hσ

/-- Parameters add nothing to the environment. -/
theorem environment_enter {params locals : Scope} (hp : params.IsParams) :
    (⟨s.globals, ⟨params, locals⟩ :: s.levels⟩ : Scopes).environment.Le
      (s.environment.inside locals) := by
  refine ⟨fun _ => id, fun σ hσ => ?_⟩
  simp only [environment, frames, List.flatMap_cons, List.cons_append, List.nil_append,
    hp.signatures] at hσ
  exact List.mem_append.2 (List.mem_append.1 hσ).symm

theorem All.top {P : Declaration → Prop} (hs : s.All P) : s.top.All P := by
  obtain ⟨g, _ | ⟨l, ls⟩⟩ := s
  · exact hs.globals
  · exact (hs.levels l List.mem_cons_self).2

theorem All.withTop {P : Declaration → Prop} (hs : s.All P) (h : sc.All P) :
    (s.withTop sc).All P := by
  obtain ⟨g, _ | ⟨l, ls⟩⟩ := s
  · exact ⟨h, nofun⟩
  · obtain ⟨hl, hls⟩ := List.forall_mem_cons.1 hs.levels
    exact ⟨hs.globals, List.forall_mem_cons.2 ⟨⟨hl.1, h⟩, hls⟩⟩

theorem All.enter {P : Declaration → Prop} (hs : s.All P) {params : Scope} (hp : params.All P) :
    (s.enter params).All P :=
  ⟨hs.globals, List.forall_mem_cons.2 ⟨⟨hp, nofun⟩, hs.levels⟩⟩

/-- Only the innermost scope has changed, and all its variables are still there. -/
structure Grown (s s' : Scopes) : Prop where
  frame : s' = s.withTop s'.top
  vars : s.top.vars ⊆ s'.top.vars

theorem Grown.refl (s : Scopes) : Grown s s := ⟨withTop_top.symm, fun _ => id⟩

theorem Grown.trans {s'' : Scopes} (h : Grown s s') (h' : Grown s' s'') : Grown s s'' where
  frame := by rw [h'.frame, h.frame, withTop_withTop, top_withTop]
  vars := fun _ hv => h'.vars (h.vars hv)

theorem Grown.withTop (h : s.top.vars ⊆ sc.vars) : Grown s (s.withTop sc) :=
  ⟨by rw [top_withTop], by rwa [top_withTop]⟩

theorem Grown.params (h : Grown s s') : s'.params = s.params := by
  rw [h.frame, params_withTop]

/-- What holds of the visible scopes between two declarations, where the path holds the names of the
routines around. -/
structure Ready (path : List String) (s : Scopes) : Prop where
  sound : s.Sound
  named : s.top.Named
  apart : ∀ v ∈ s.top.vars, s.params.contains v.1 = false
  routines : ∀ n r, (n, .routine r) ∈ s.top.entries → r.Declared s.environment path n

theorem empty_ready : empty.Ready [] :=
  ⟨⟨nofun, nofun⟩, Scope.empty_named, nofun, nofun⟩

/-- One more declaration in the innermost scope. -/
theorem Ready.push (hs : s.Ready path) {n : Name} {d : Declaration} (hw : n.IsWord) (hd : d.Sound)
    (hc : s.top.contains n = false) (hp : ∀ p t, d = .var p t → s.params.contains n = false)
    (hr : ∀ r, d = .routine r → r.Declared s.environment path n) :
    (s.withTop ⟨s.top.entries ++ [(n, d)]⟩).Ready path ∧
      Grown s (s.withTop ⟨s.top.entries ++ [(n, d)]⟩) := by
  have hv : s.top.vars ⊆ (⟨s.top.entries ++ [(n, d)]⟩ : Scope).vars := by
    rw [Scope.vars_snoc]
    exact List.subset_append_left _ _
  have hσ : s.top.signatures ⊆ (⟨s.top.entries ++ [(n, d)]⟩ : Scope).signatures := by
    rw [Scope.signatures_snoc]
    exact List.subset_append_left _ _
  -- routines that obey the rules go on to obey them where more can be called
  have hg := environment_withTop hv hσ
  refine ⟨⟨hs.sound.withTop (hs.sound.top.snoc hd), ?_, ?_, ?_⟩, .withTop hv⟩
  · rw [top_withTop]
    exact hs.named.snoc hw hc
  · rw [top_withTop, params_withTop, Scope.vars_snoc]
    refine List.forall_mem_append.2 ⟨hs.apart, ?_⟩
    cases d with
    | var p t => exact List.forall_mem_singleton.2 (hp p t rfl)
    | const | type | routine => exact nofun
  · intro m r hm
    rw [top_withTop] at hm
    rcases List.mem_append.1 hm with hm | hm
    · exact (hs.routines m r hm).mono hg
    · cases List.mem_singleton.1 hm
      exact (hr r rfl).mono hg

theorem insertTop_eq_ok {n : Name} {d : Declaration} (h : s.insertTop n d = .ok s') :
    s.top.contains n = false ∧ s' = s.withTop ⟨s.top.entries ++ [(n, d)]⟩ := by
  unfold insertTop at h
  cases hi : s.top.insert n d with
  | error e => rw [hi] at h; cases h
  | ok sc =>
    rw [hi] at h
    cases h
    obtain ⟨hc, rfl⟩ := Scope.insert_eq_ok hi
    exact ⟨hc, rfl⟩

theorem declare_eq_ok {n : Name} {d : Declaration} (h : s.declare n d = .ok s') :
    s.params.contains n = false ∧ s.top.contains n = false ∧
      s' = s.withTop ⟨s.top.entries ++ [(n, d)]⟩ := by
  unfold declare at h
  split at h
  · cases h
  · rename_i hc
    exact ⟨by simpa using hc, insertTop_eq_ok h⟩

/-- Only a name that is taken cannot be declared. -/
theorem declare_error {n : Name} {d : Declaration} {e : Located SemanticError}
    (h : s.declare n d = .error e) : e = ⟨d.position, .duplicateDeclaration n⟩ := by
  unfold declare insertTop Scope.insert at h
  split at h
  · cases h
    rfl
  · split at h
    · cases h
      rfl
    · cases h

/-- A declaration that is not a routine. -/
theorem Ready.declare (hs : s.Ready path) {n : Name} {d : Declaration} (hw : n.IsWord)
    (hd : d.Sound) (hr : ∀ r, d ≠ .routine r) (h : s.declare n d = .ok s') :
    s'.Ready path ∧ Grown s s' ∧ s'.top.entries = s.top.entries ++ [(n, d)] := by
  obtain ⟨hp, hc, rfl⟩ := declare_eq_ok h
  obtain ⟨hready, hgrown⟩ := hs.push hw hd hc (fun _ _ _ => hp) fun r he => absurd he (hr r)
  exact ⟨hready, hgrown, by rw [top_withTop]⟩

/-- The declarations of a section. -/
theorem Ready.declareAll (hs : s.Ready path) {entries : List (Name × Declaration)}
    (he : ∀ e ∈ entries, e.1.IsWord ∧ e.2.Sound ∧ ∀ r, e.2 ≠ .routine r)
    (h : s.declareAll entries = (s', none)) :
    s'.Ready path ∧ Grown s s' ∧
      labelsOfEntries s'.top.entries = labelsOfEntries s.top.entries := by
  induction entries generalizing s with
  | nil =>
    cases h
    exact ⟨hs, .refl _, rfl⟩
  | cons e es ih =>
    obtain ⟨n, d⟩ := e
    obtain ⟨⟨hw, hd, hr⟩, hes⟩ := List.forall_mem_cons.1 he
    rw [Scopes.declareAll] at h
    split at h
    · rename_i s₁ hs₁
      obtain ⟨hready, hgrown, htop⟩ := hs.declare hw hd hr hs₁
      obtain ⟨hready', hgrown', hl⟩ := ih hready hes h
      refine ⟨hready', hgrown.trans hgrown', ?_⟩
      have : d.labels = 0 := by
        cases d with
        | routine r => exact absurd rfl (hr r)
        | var | const | type => rfl
      rw [hl, htop, labelsOfEntries_append, labelsOfEntries, labelsOfEntries, this]
      rfl
    · cases h

end Scopes

/-! ### Completing a routine -/

theorem Declaration.complete_routine (r : Routine) (body : Block) :
    (routine r).complete body = .routine (r.complete body) := rfl

theorem Routine.labels_complete (r : Routine) (body : Block) : (r.complete body).labels =
    Stmt.labelsOfAll body.statements + labelsOfEntries body.scope.entries := by
  obtain ⟨_, _, _, _, _, _⟩ := r
  obtain ⟨⟨_⟩, _⟩ := body
  simp only [complete, labels]

namespace Scope

variable {entries : List (Name × Declaration)} {n : Name} {body : Block}

theorem modify_eq_self (h : ∀ e ∈ entries, e.1.canonical ≠ n.canonical)
    (f : Declaration → Declaration) : modify ⟨entries⟩ n f = ⟨entries⟩ := by
  unfold modify
  congr 1
  refine (List.map_congr_left fun e he => ?_).trans (List.map_id _)
  have : ¬ (e.1 == n) = true := fun hb => h e he ((Name.beq_iff _ _).1 hb)
  rw [if_neg this, id]

/-- Only the entry of the name changes, and it keeps its place. -/
theorem modify_split {s : Scope} {before behind : List (Name × Declaration)} {m : Name}
    {d : Declaration} (hd : (s.entries.map fun e => e.1.canonical).Nodup)
    (hs : s.entries = before ++ (m, d) :: behind) (hn : m.canonical = n.canonical)
    (f : Declaration → Declaration) : s.modify n f = ⟨before ++ (m, f d) :: behind⟩ := by
  rw [hs] at hd
  simp only [List.map_append, List.map_cons, List.nodup_append, List.nodup_cons, List.mem_map,
    List.mem_cons, not_exists, not_and] at hd
  obtain ⟨-, ⟨hbehind, -⟩, hbefore⟩ := hd
  -- no other entry has the name
  have hbefore : modify ⟨before⟩ n f = ⟨before⟩ :=
    modify_eq_self (fun e he => hn ▸ hbefore _ ⟨e, he, rfl⟩ _ (.inl rfl)) f
  have hbehind : modify ⟨behind⟩ n f = ⟨behind⟩ :=
    modify_eq_self (fun e he => hn ▸ hbehind e he) f
  have hbeq : (m == n) = true := (Name.beq_iff m n).2 hn
  simp only [modify, Scope.mk.injEq] at hbefore hbehind
  simp only [modify, hs, List.map_append, List.map_cons, hbefore, hbehind, hbeq, if_true]

/-- What is read off the entries is as before, if a body makes no difference to it. -/
theorem filterMap_complete {β : Type} (s : Scope) {view : Name × Declaration → Option β}
    (hview : ∀ m d, view (m, d.complete body) = view (m, d)) :
    (s.modify n (.complete body)).entries.filterMap view = s.entries.filterMap view := by
  rw [modify, List.filterMap_map]
  refine List.filterMap_congr fun e _ => ?_
  obtain ⟨m, d⟩ := e
  by_cases hb : (m == n) = true
  · simp only [Function.comp_apply, hb, if_true]
    exact hview m d
  · simp only [Function.comp_apply, hb]
    rfl

theorem signatures_complete (s : Scope) :
    (s.modify n (.complete body)).signatures = s.signatures := by
  simp only [signatures, routines, List.map_filterMap]
  exact filterMap_complete s fun m d => by cases d <;> rfl

theorem vars_complete (s : Scope) : (s.modify n (.complete body)).vars = s.vars :=
  filterMap_complete s fun m d => by cases d <;> rfl

theorem mem_complete {s : Scope} {m : Name} {d : Declaration}
    (h : (m, d) ∈ (s.modify n (.complete body)).entries) :
    (m, d) ∈ s.entries ∧ m.canonical ≠ n.canonical ∨
    ∃ d', (m, d') ∈ s.entries ∧ m.canonical = n.canonical ∧ d = d'.complete body := by
  simp only [modify, List.mem_map] at h
  obtain ⟨⟨m', d'⟩, hm, he⟩ := h
  dsimp only at he
  split at he
  · rename_i hb
    cases he
    exact .inr ⟨d', hm, (Name.beq_iff _ _).1 hb, rfl⟩
  · rename_i hb
    cases he
    exact .inl ⟨hm, fun hc => hb ((Name.beq_iff _ _).2 hc)⟩

theorem names_complete (s : Scope) :
    (s.modify n (.complete body)).entries.map (fun e => e.1.canonical) =
      s.entries.map fun e => e.1.canonical := by
  simp only [modify, List.map_map]
  refine List.map_congr_left fun e _ => ?_
  simp only [Function.comp_apply]
  split <;> rfl

theorem Named.complete {s : Scope} (h : s.Named) : (s.modify n (.complete body)).Named where
  words e he := by
    obtain ⟨m, d⟩ := e
    rcases mem_complete he with ⟨hm, -⟩ | ⟨d', hm, -⟩
    · exact h.words _ hm
    · exact h.words (m, d') hm
  nodup := by
    rw [names_complete]
    exact h.nodup

theorem Named.eq_of_canonical {s : Scope} (h : s.Named) {m m' : Name} {d d' : Declaration}
    (hm : (m, d) ∈ s.entries) (hm' : (m', d') ∈ s.entries) (he : m.canonical = m'.canonical) :
    d = d' := by
  have := List.inj_on_of_nodup_map h.nodup hm hm' he
  exact congrArg Prod.snd this

/-- A routine that gets its body brings the labels of that body. -/
theorem labelsOfEntries_complete {s : Scope} (h : s.Named) {m : Name} {r : Routine}
    (hm : (m, .routine r) ∈ s.entries) (hn : m.canonical = n.canonical) (hb : r.body = none) :
    labelsOfEntries (s.modify n (.complete body)).entries = labelsOfEntries s.entries +
      (Stmt.labelsOfAll body.statements + labelsOfEntries body.scope.entries) := by
  obtain ⟨before, behind, hsplit⟩ := List.append_of_mem hm
  have hself : r.labels = 0 := by
    obtain ⟨_, _, _, _, _, _⟩ := r
    cases hb
    rfl
  rw [modify_split h.nodup hsplit hn, hsplit]
  simp only [labelsOfEntries_append, labelsOfEntries, Declaration.complete_routine,
    Declaration.labels, hself, Routine.labels_complete]
  omega

end Scope

end MiniPascal
