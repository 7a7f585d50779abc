import MiniPascal.Grammar.Program
import MiniPascal.Proofs.Checked.Stack
import MiniPascal.Proofs.Reading.Ensures

/-! Declarations as steps on the visible scopes. What every step keeps holds of every program, by
induction on `Declares`. -/

namespace MiniPascal.Grammar

open Cursor

/-- What declarations can make of the visible scopes. -/
inductive Declares : Scopes → Scopes → Prop
  | refl {s : Scopes} : Declares s s
  /-- A variable, a constant or a type. -/
  | plain {s s₁ s₂ : Scopes} {n : Name} {d : Declaration} (h : Declares s s₁)
    (hd : ∀ r, d ≠ .routine r) (hs : s₁.declare n d = .ok s₂) : Declares s s₂
  | forward {s s₁ s₂ : Scopes} {n : Name} {r : Routine} (h : Declares s s₁) (hr : r.body = none)
    (hs : register s₁ n r true = .ok s₂) : Declares s s₂
  | routine {s s₁ s₂ s₃ s₄ : Scopes} {n : Name} {r : Routine} (ss : List Stmt) (h : Declares s s₁)
    (hr : r.body = none) (hs : register s₁ n r false = .ok s₂)
    (he : enterBody s₂ n r = .ok s₃) (hb : Declares s₃ s₄) : Declares s (leaveBody s₄ n ss)

namespace Declares

variable {s s' s'' : Scopes}

theorem trans (h : Declares s s') (h' : Declares s' s'') : Declares s s'' := by
  induction h' with
  | refl => exact h
  | plain _ hd hs ih => exact .plain (ih h) hd hs
  | forward _ hr hs ih => exact .forward (ih h) hr hs
  | routine ss _ hr hs he hb ih _ => exact .routine ss (ih h) hr hs he hb

/-- A routine that is registered is put behind all other declarations, or it is the definition of a
routine declared `forward`. -/
theorem register_cases {n : Name} {r : Routine} {forward : Bool}
    (h : register s n r forward = .ok s') :
    (s.top.contains n = false ∧ s' = s.withTop ⟨s.top.entries ++ [(n, .routine r)]⟩) ∨
    (s' = s ∧ forward = false ∧
      ∃ e, s.top.get? n = some (.routine e) ∧ e.forward = true ∧ e.sameSignature r = true) := by
  unfold register at h
  split at h
  · exact .inl (Scopes.insertTop_eq_ok (Read.checked_eq_ok.1 h))
  · rename_i e he
    split at h
    · rename_i hf
      rw [Bool.and_eq_true, Bool.not_eq_true'] at hf
      split at h
      · rename_i hsig
        cases h
        exact .inr ⟨rfl, hf.2, e, he, hf.1, hsig⟩
      · cases h
    · cases h
  · cases h

theorem enterBody_cases {n : Name} {r : Routine} (h : enterBody s n r = .ok s') :
    (s' = s.enter r.params ∧ r.returns = none) ∨
    ∃ t, r.returns = some t ∧ (s.enter r.params).declare n (.var r.position t) = .ok s' := by
  unfold enterBody at h
  dsimp only at h
  split at h
  · rename_i hn
    cases h
    exact .inl ⟨rfl, hn⟩
  · rename_i t ht
    exact .inr ⟨t, ht, Read.checked_eq_ok.1 h⟩

/-- The result of a function is the first declaration of its body. -/
theorem enterBody_declares {n : Name} {r : Routine} (h : enterBody s n r = .ok s') :
    Declares (s.enter r.params) s' := by
  rcases enterBody_cases h with ⟨rfl, -⟩ | ⟨t, -, hd⟩
  · exact .refl
  · exact .plain .refl (fun _ hr => by cases hr) hd

theorem leaveBody_enter {params : Scope} {inner : Scopes} {n : Name} {ss : List Stmt}
    (h : inner = (s.enter params).withTop inner.top) :
    leaveBody inner n ss =
      s.withTop (s.top.modify n (.complete ⟨inner.top, ss⟩)) := by
  rw [h]
  rfl

/-- Declarations change the innermost scope only. -/
theorem frame (h : Declares s s') : s' = s.withTop s'.top := by
  -- a scope put in the place of the innermost one leaves the others
  have hput : ∀ {s s₁ : Scopes} {scope : Scope}, s₁ = s.withTop s₁.top →
      s₁.withTop scope = s.withTop (s₁.withTop scope).top := by
    intro s s₁ scope h₁
    rw [Scopes.top_withTop, h₁, Scopes.withTop_withTop]
  have hregister : ∀ {s s₁ s₂ : Scopes} {n : Name} {r : Routine} {forward : Bool},
      s₁ = s.withTop s₁.top → register s₁ n r forward = .ok s₂ → s₂ = s.withTop s₂.top := by
    intro s s₁ s₂ n r forward h₁ hs
    rcases register_cases hs with ⟨-, rfl⟩ | ⟨rfl, -⟩
    · exact hput h₁
    · exact h₁
  induction h with
  | refl => exact Scopes.withTop_top.symm
  | plain _ _ hs ih =>
    obtain ⟨-, -, rfl⟩ := Scopes.declare_eq_ok hs
    exact hput ih
  | forward _ _ hs ih => exact hregister ih hs
  | @routine s s₁ s₂ s₃ s₄ n r ss _ _ hs he _ ih ihb =>
    have hs₃ : s₃ = (s₂.enter r.params).withTop s₃.top := by
      rcases enterBody_cases he with ⟨rfl, -⟩ | ⟨t, -, hd⟩
      · exact Scopes.withTop_top.symm
      · obtain ⟨-, -, rfl⟩ := Scopes.declare_eq_ok hd
        exact hput Scopes.withTop_top.symm
    have hs₄ : s₄ = (s₂.enter r.params).withTop s₄.top := by
      rw [ihb, hs₃, Scopes.withTop_withTop, Scopes.top_withTop]
    rw [leaveBody_enter hs₄]
    exact hput (hregister ih hs)

end Declares

/-! ### Reading -/

/-- Variables of one type have what declarations of that type have. -/
theorem addVariables_all {P : Declaration → Prop} {scope : Scope} (hs : scope.All P) {t : Ty}
    (ht : ∀ p, P (.var p t)) (names : List (Located Name)) :
    Read.Ensures (addVariables scope t names) (Scope.All P) := by
  induction names generalizing scope with
  | nil => exact .ok hs
  | cons n names ih =>
    refine .bind (Read.ensures_checked _) fun scope' hi => ?_
    obtain ⟨-, rfl⟩ := Scope.insert_eq_ok hi
    exact ih (hs.snoc (ht n.position))

/-- A section declares no routine. -/
theorem sectionDeclaration_plain (sec : Section) (s : Scopes) (c : Cursor) :
    Read.Ensures (sectionDeclaration sec s c) fun t =>
      t.value.All fun d => ∀ r, d ≠ .routine r := by
  have hvar : ∀ (p : Position) (t : Ty) (r : Routine), Declaration.var p t ≠ .routine r := by
    intro p t r h
    cases h
  cases sec with
  | vars =>
    show Read.Ensures (variableDeclaration s c) _
    unfold variableDeclaration
    refine .step fun ⟨names, c₁, h₁⟩ => .step fun ⟨_, c₂, h₂⟩ => .step fun ⟨t, c₃, h₃⟩ =>
      .step fun ⟨_, c₄, h₄⟩ => ?_
    have hempty : Scope.empty.All fun d => ∀ r, d ≠ .routine r := List.forall_mem_nil _
    exact .bind (addVariables_all hempty (fun p => hvar p t) names) fun scope h => .pure h
  | consts =>
    show Read.Ensures (constantDeclaration s c) _
    unfold constantDeclaration
    refine .step fun ⟨name, c₁, h₁⟩ => .step fun ⟨_, c₂, h₂⟩ => .step fun ⟨e, c₃, h₃⟩ =>
      .step fun value => .step fun ⟨_, c₄, h₄⟩ => .pure ?_
    exact List.forall_mem_singleton.2 fun _ hr => by cases hr
  | types =>
    show Read.Ensures (typeDeclaration s c) _
    unfold typeDeclaration
    refine .step fun ⟨name, c₁, h₁⟩ => .step fun ⟨_, c₂, h₂⟩ => .step fun ⟨t, c₃, h₃⟩ =>
      .step fun ⟨_, c₄, h₄⟩ => .pure ?_
    exact List.forall_mem_singleton.2 fun _ hr => by cases hr

/-- What each of some declarations keeps of the visible scopes, all of them keep. -/
theorem declareAll_keeps {P : Scopes → Prop} {Q : Declaration → Prop}
    (hstep : ∀ {s s' : Scopes} {n : Name} {d : Declaration}, P s → Q d → s.declare n d = .ok s' →
      P s') {s : Scopes} (hs : P s) {scope : Scope} (hQ : scope.All Q) :
    Read.Ensures (declareAll s scope) P := by
  have hall : ∀ (entries : List (Name × Declaration)) (s s' : Scopes), P s →
      (∀ e ∈ entries, Q e.2) → s.declareAll entries = (s', none) → P s' := by
    intro entries
    induction entries with
    | nil =>
      intro s s' hs _ h
      cases h
      exact hs
    | cons e entries ih =>
      intro s s' hs hQ h
      obtain ⟨hd, hQ⟩ := List.forall_mem_cons.1 hQ
      rw [Scopes.declareAll] at h
      split at h
      · rename_i s₁ hs₁
        exact ih s₁ s' (hstep hs hd hs₁) hQ h
      · cases h
  unfold declareAll
  split
  · rename_i s' h
    exact .ok (hall scope.entries s s' hs hQ h)
  · exact .error

theorem declareAll_declares {s : Scopes} {scope : Scope}
    (hp : scope.All fun d => ∀ r, d ≠ .routine r) :
    Read.Ensures (declareAll s scope) (Declares s) :=
  declareAll_keeps (fun h hd hs => .plain h hd hs) .refl hp

theorem sectionDeclarations_declares (sec : Section) (s : Scopes) (c : Cursor) :
    Read.Ensures (sectionDeclarations sec s c) fun t => Declares s t.value := by
  unfold sectionDeclarations
  refine .bind (sectionDeclaration_plain sec s c) ?_
  rintro ⟨scope, c₁, h₁⟩ hp
  refine .bind (declareAll_declares hp) ?_
  intro s₁ hs₁
  dsimp only
  split
  · refine .bind (sectionDeclarations_declares sec s₁ c₁) ?_
    rintro ⟨s₂, c₂, h₂⟩ hs₂
    exact .pure (hs₁.trans hs₂)
  · exact .pure hs₁
termination_by c.size

theorem heading_bodiless (path : List String) (s : Scopes) (isFunction : Bool) (c : Cursor) :
    Read.Ensures (heading path s isFunction c) fun t => t.value.2.body = none := by
  unfold heading
  refine .step fun ⟨name, c₁, h₁⟩ => .step fun ⟨params, c₂, h₂⟩ => .step fun ⟨returns, c₃, h₃⟩ =>
    .step fun ⟨_, c₄, h₄⟩ => .pure ?_
  rfl

/-- A routine that is read has a heading and is registered. It is declared `forward`, or its body is
entered, read and left. -/
theorem routine_cases {path : List String} {s : Scopes} {isFunction : Bool} {c : Cursor}
    {t : Taken c Scopes} (hd : routine path s isFunction c = .ok t) :
    ∃ n r c₁ h₁, heading path s isFunction c = .ok ⟨(n, r), c₁, h₁⟩ ∧
      (c₁.seesKeyword .kwForward = true ∧ register s n r true = .ok t.value ∨
      c₁.seesKeyword .kwForward = false ∧ ∃ s₁ s₂ inner ss, register s n r false = .ok s₁ ∧
        enterBody s₁ n r = .ok s₂ ∧ declarations (path ++ [n.canonical]) s₂ c₁ = .ok inner ∧
        t.value = leaveBody inner.value n ss) := by
  revert t
  change Read.Ensures (routine path s isFunction c) _
  unfold routine
  apply Read.Ensures.known
  rintro ⟨⟨n, r⟩, c₁, h₁⟩ hh
  apply Read.Ensures.known
  intro s₁ hs₁
  dsimp only at hs₁ ⊢
  split
  · rename_i hf
    rw [hf] at hs₁
    refine .step fun _ => .step fun _ => .pure ?_
    exact ⟨n, r, c₁, h₁, hh, .inl ⟨hf, hs₁⟩⟩
  · rename_i hf
    rw [Bool.not_eq_true] at hf
    rw [hf] at hs₁
    apply Read.Ensures.known
    intro s₂ hs₂
    apply Read.Ensures.known
    intro inner hinner
    refine .step fun ss => .step fun _ => .pure ?_
    exact ⟨n, r, c₁, h₁, hh, .inr ⟨hf, s₁, s₂, inner, ss.value, hs₁, hs₂, hinner, rfl⟩⟩

mutual

/-- The declarations in front of a `begin` are steps on the visible scopes. -/
theorem declarations_declares (path : List String) (s : Scopes) (c : Cursor) :
    Read.Ensures (declarations path s c) fun t => Declares s t.value := by
  unfold declarations
  refine .step fun o => ?_
  rcases o with _ | ⟨⟨sec, _⟩, c₁, h₁⟩
  swap
  · refine .bind (sectionDeclarations_declares sec s c₁) ?_
    rintro ⟨s₁, c₂, h₂⟩ hs₁
    refine .bind (declarations_declares path s₁ c₂) ?_
    rintro ⟨s₂, c₃, h₃⟩ hs₂
    exact .pure (hs₁.trans hs₂)
  refine .step fun o => ?_
  rcases o with _ | ⟨⟨isFunction, _⟩, c₁, h₁⟩
  swap
  · refine .bind (routine_declares path s isFunction c₁) ?_
    rintro ⟨s₁, c₂, h₂⟩ hs₁
    refine .bind (declarations_declares path s₁ c₂) ?_
    rintro ⟨s₂, c₃, h₃⟩ hs₂
    exact .pure (hs₁.trans hs₂)
  exact .step fun _ => .pure .refl
termination_by c.size

theorem routine_declares (path : List String) (s : Scopes) (isFunction : Bool) (c : Cursor) :
    Read.Ensures (routine path s isFunction c) fun t => Declares s t.value := by
  intro t hd
  obtain ⟨n, r, c₁, h₁, hh, ⟨-, hs⟩ | ⟨-, s₁, s₂, inner, ss, hs, he, hinner, hvalue⟩⟩ :=
    routine_cases hd
  · have hr : r.body = none := heading_bodiless path s isFunction c _ hh
    exact .forward .refl hr hs
  · have hr : r.body = none := heading_bodiless path s isFunction c _ hh
    rw [hvalue]
    exact .routine ss .refl hr hs he (declarations_declares _ s₂ c₁ _ hinner)
termination_by c.size

end

end Grammar

/-- The scope of a program is made by its declarations. -/
theorem Program.ofText_declares {text name : String} {p : Program}
    (h : ofText text name = .ok p) : ∃ s, Grammar.Declares .empty s ∧ p.scope = s.globals := by
  have hread : Read.Ensures (ofText text name) fun p =>
      ∃ s, Grammar.Declares .empty s ∧ p.scope = s.globals := by
    unfold ofText ofCursor
    refine .step fun c => .step fun ⟨name, c₁, _⟩ => ?_
    refine .bind (Grammar.declarations_declares [] .empty c₁) ?_
    rintro ⟨s, c₂, _⟩ hs
    exact .step fun ⟨ss, c₃, _⟩ => .step fun ⟨_, c₄, _⟩ => .step fun _ => .pure ⟨s, hs, rfl⟩
  exact hread p h

end MiniPascal
