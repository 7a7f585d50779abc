import MiniPascal.Proofs.Session.Rules

/-! Reading with a session comes to what the grammar reads. -/

namespace MiniPascal

namespace Session

open Cursor Grammar

/-- From the session the reading does what the plain one does, and of its result `f` tells what is
given and which session is left. -/
def Leads {α β : Type} (s : Session) (r : Read α) (f : α → β × Session) (m : Reading β) : Prop :=
  m s = r.map f

/-- Whether a loop is around. -/
def inLoop (s : Session) : Bool := s.loops ≠ 0

namespace Leads

variable {α β γ δ : Type} {s : Session} {r : Read α} {m : Reading β} {f : α → β × Session}
  {k : α → Read γ} {k' : β → Reading δ} {g : γ → δ × Session}

theorem pure {a : α} {b : β} (h : f a = (b, s)) : Leads s (Pure.pure a) f (Pure.pure b) :=
  congrArg Except.ok h.symm

theorem bind (h : Leads s r f m) (hk : ∀ a, Leads (f a).2 (k a) g (k' (f a).1)) :
    Leads s (r >>= k) g (m >>= k') := by
  have hbind : (m >>= k') s = r.map f >>= fun p => k' p.1 p.2 := by
    rw [← h]
    rfl
  unfold Leads
  rw [hbind]
  cases r with
  | error e => rfl
  | ok a => exact hk a

/-- A plain step looks at no session and changes none. -/
theorem plain {k' : α → Reading δ} (hk : ∀ a, Leads s (k a) g (k' a)) :
    Leads s (r >>= k) g (liftM r >>= k') := by
  have hlift : Leads s r (fun a => (a, s)) (liftM r) := by
    cases r <;> rfl
  exact hlift.bind hk

/-- A step after which the session is the same. -/
theorem kept {m : Reading α} (h : Leads s r (fun a => (a, s)) m) {k' : α → Reading δ}
    (hk : ∀ a, Leads s (k a) g (k' a)) : Leads s (r >>= k) g (m >>= k') := h.bind hk

theorem fail {e : Located Fault} :
    Leads s (.error e : Read α) f (liftM (.error e : Read β) : Reading β) := rfl

theorem visible {r : Read γ} {k' : Scopes → Reading δ} (h : Leads s r g (k' s.scopes)) :
    Leads s r g (Session.visible >>= k') := h

/-- What is looked up in the session. -/
theorem get {r : Read γ} {k' : Session → Reading δ} (h : Leads s r g (k' s)) :
    Leads s r g (MonadState.get >>= k') := h

theorem change {r : Read γ} {φ : Session → Session} {k' : Unit → Reading δ}
    (h : Leads (φ s) r g (k' ())) : Leads s r g (modify φ >>= k') := h

/-- A step that the plain reading does not have. -/
theorem beside {r : Read γ} {m : Reading β} {k' : β → Reading δ} {b : β} {s' : Session}
    (hm : m s = .ok (b, s')) (h : Leads s' r g (k' b)) : Leads s r g (m >>= k') := by
  have hbind : (m >>= k') s = m s >>= fun p => k' p.1 p.2 := rfl
  unfold Leads
  rw [hbind, hm]
  exact h

/-- Behind a loop as many loops are around as in front of it. -/
theorem loopBody {m : Reading α}
    (h : Leads { s with loops := s.loops + 1 } r
      (fun a => (a, { s with loops := s.loops + 1 })) m) :
    Leads s r (fun a => (a, s)) (Session.loopBody m) := by
  have hbody : Leads s (r >>= Pure.pure) (fun a => (a, s)) (Session.loopBody m) := by
    apply change
    apply h.bind
    intro a
    exact change (pure rfl)
  rwa [bind_pure] at hbody

end Leads

/-! ### Statements -/

/-- Where a transition stands, the grammar has a flag and the session counts. -/
theorem transition (s : Session) (c : Cursor) :
    Leads s
      (do
        match ← c.accept transition? with
        | none => return .stay none
        | some ⟨(kind, token), c₁, h₁⟩ =>
          if s.inLoop then return Taken.mk (some (.transition kind token.position)) c₁ h₁ |>.passed
          else reject token.position (.outsideLoop (transitionKeyword kind)))
      (fun t : Passed c (Option Stmt) => (t, s))
      (do
        match ← c.accept transition? with
        | none => return .stay none
        | some ⟨(kind, token), c₁, h₁⟩ =>
          if (← MonadState.get).loops = 0 then
            (reject token.position (.outsideLoop (transitionKeyword kind)) :
              Read (Passed c (Option Stmt)))
          else return Taken.mk (some (.transition kind token.position)) c₁ h₁ |>.passed) := by
  apply Leads.plain
  rintro (_ | ⟨⟨kind, token⟩, c₁, h₁⟩)
  · exact .pure rfl
  · apply Leads.get
    unfold inLoop
    dsimp only
    by_cases hloops : s.loops = 0
    · rw [if_pos hloops, if_neg (by simp [hloops])]
      exact .fail
    · rw [if_neg hloops, if_pos (by simp [hloops])]
      exact .pure rfl

-- The measures are those of the rules, whose calls are the induction hypotheses.
mutual

theorem statement_leads (s : Session) (c : Cursor) :
    Leads s (Grammar.statement s.scopes s.inLoop c) (fun t => (t, s)) (statement c) := by
  rw [Grammar.statement, statement]
  generalize c.current.kind = kind
  cases kind with
  | keyword k =>
    cases k with
    | kwBegin =>
      apply (compound_leads s c).kept
      rintro ⟨ss, c₁, h₁⟩
      exact .pure rfl
    | kwIf =>
      apply Leads.plain
      rintro ⟨_, c₁, h₁⟩
      apply Leads.visible
      apply Leads.plain
      rintro ⟨test, c₂, h₂⟩
      apply Leads.plain
      rintro ⟨_, c₃, h₃⟩
      apply (body_leads s c₃).kept
      rintro ⟨yes, c₄, h₄⟩
      apply Leads.plain
      rintro (_ | ⟨_, c₅, h₅⟩)
      · exact .pure rfl
      · apply (body_leads s c₅).kept
        rintro ⟨no, c₆, h₆⟩
        exact .pure rfl
    | kwWhile =>
      apply Leads.plain
      rintro ⟨_, c₁, h₁⟩
      apply Leads.visible
      apply Leads.plain
      rintro ⟨test, c₂, h₂⟩
      apply Leads.plain
      rintro ⟨_, c₃, h₃⟩
      apply (body_leads { s with loops := s.loops + 1 } c₃).loopBody.kept
      rintro ⟨inner, c₄, h₄⟩
      exact .pure rfl
    | kwRepeat =>
      apply Leads.plain
      rintro ⟨_, c₁, h₁⟩
      apply (statements_leads { s with loops := s.loops + 1 } c₁).loopBody.kept
      rintro ⟨ss, c₂, h₂⟩
      apply Leads.plain
      rintro ⟨_, c₃, h₃⟩
      apply Leads.visible
      apply Leads.plain
      rintro ⟨test, c₄, h₄⟩
      exact .pure rfl
    | kwFor =>
      apply Leads.plain
      rintro ⟨token, c₁, h₁⟩
      apply Leads.visible
      apply Leads.plain
      rintro ⟨⟨target, value, bound⟩, c₂, h₂⟩
      apply Leads.plain
      rintro ⟨_, c₃, h₃⟩
      apply (body_leads { s with loops := s.loops + 1 } c₃).loopBody.kept
      rintro ⟨inner, c₄, h₄⟩
      exact .pure rfl
    | _ => exact transition s c
  | identifier =>
    apply Leads.plain
    rintro ⟨name, c₁, h₁⟩
    apply Leads.visible
    apply Leads.plain
    rintro ⟨named, c₂, h₂⟩
    exact .pure rfl
  | _ => exact transition s c
termination_by 4 * c.size + 1

theorem body_leads (s : Session) (c : Cursor) :
    Leads s (Grammar.body s.scopes s.inLoop c) (fun t => (t, s)) (body c) := by
  rw [Grammar.body, body]
  apply (statement_leads s c).kept
  rintro ⟨inner, c₁, h₁⟩
  exact .pure rfl
termination_by 4 * c.size + 2

theorem statements_leads (s : Session) (c : Cursor) :
    Leads s (Grammar.statements s.scopes s.inLoop c) (fun t => (t, s)) (statements c) := by
  rw [Grammar.statements, statements]
  apply (statement_leads s c).kept
  rintro ⟨first, c₁, h₁⟩
  apply Leads.plain
  rintro (_ | ⟨_, c₂, h₂⟩)
  · exact .pure rfl
  · apply (statements_leads s c₂).kept
    rintro ⟨ss, c₃, h₃⟩
    exact .pure rfl
termination_by 4 * c.size + 2

theorem compound_leads (s : Session) (c : Cursor) :
    Leads s (Grammar.compound s.scopes s.inLoop c) (fun t => (t, s)) (compound c) := by
  rw [Grammar.compound, compound]
  apply Leads.plain
  rintro ⟨_, c₁, h₁⟩
  apply (statements_leads s c₁).kept
  rintro ⟨ss, c₂, h₂⟩
  apply Leads.plain
  rintro ⟨_, c₃, h₃⟩
  exact .pure rfl
termination_by 4 * c.size

end

/-! ### Declarations -/

theorem sectionDeclarations_leads (sec : Section) (s : Session) (c : Cursor) :
    Leads s (Grammar.sectionDeclarations sec s.scopes c)
      (fun t => (⟨(), t.rest, t.lt⟩, { s with scopes := t.value }))
      (sectionDeclarations sec c) := by
  rw [Grammar.sectionDeclarations, sectionDeclarations]
  apply Leads.visible
  apply Leads.plain
  rintro ⟨scope, c₁, h₁⟩
  have hmerge : Leads s (declareAll s.scopes scope) (fun scopes => ((), { s with scopes }))
      (merge scope) := by
    unfold merge
    apply Leads.visible
    cases declareAll s.scopes scope <;> rfl
  apply hmerge.bind
  intro scopes
  dsimp only
  split
  · apply (sectionDeclarations_leads sec { s with scopes } c₁).bind
    rintro ⟨scopes, c₂, h₂⟩
    exact .pure rfl
  · exact .pure rfl
termination_by c.size

theorem register_leads (s : Session) (name : Name) (r : Routine) (forward : Bool) :
    Leads s (Grammar.register s.scopes name r forward) (fun scopes => ((), { s with scopes }))
      (register name r forward) := by
  unfold register
  apply Leads.visible
  cases Grammar.register s.scopes name r forward <;> rfl

theorem enterBody_leads (s : Session) (name : Name) (r : Routine) :
    Leads s (Grammar.enterBody s.scopes name r)
      (fun scopes => ((), { s with scopes, path := s.path ++ [name.canonical] }))
      (enterBody name r) := by
  unfold Grammar.enterBody enterBody
  apply Leads.change
  apply Leads.change
  cases r.returns with
  | none => rfl
  | some t =>
    apply Leads.visible
    dsimp only
    cases (s.scopes.enter r.params).declare name (.var r.position t) <;> rfl

/-- A body that is left is the last one that was entered. -/
theorem leaveBody_eq (s : Session) (name : Name) (ss : List Stmt) :
    leaveBody name ss s = .ok ((),
      { s with scopes := Grammar.leaveBody s.scopes name ss, path := s.path.dropLast }) := rfl

mutual

theorem declarations_leads (s : Session) (c : Cursor) :
    Leads s (Grammar.declarations s.path s.scopes c)
      (fun t => (⟨(), t.rest, t.le⟩, { s with scopes := t.value })) (declarations c) := by
  rw [Grammar.declarations, declarations]
  apply Leads.plain
  rintro (_ | ⟨⟨sec, _⟩, c₁, h₁⟩)
  · apply Leads.plain
    rintro (_ | ⟨⟨isFunction, _⟩, c₁, h₁⟩)
    · apply Leads.visible
      apply Leads.plain
      intro _
      exact .pure rfl
    · apply (routine_leads s isFunction c₁).bind
      rintro ⟨scopes, c₂, h₂⟩
      apply (declarations_leads { s with scopes } c₂).bind
      rintro ⟨scopes, c₃, h₃⟩
      exact .pure rfl
  · apply (sectionDeclarations_leads sec s c₁).bind
    rintro ⟨scopes, c₂, h₂⟩
    apply (declarations_leads { s with scopes } c₂).bind
    rintro ⟨scopes, c₃, h₃⟩
    exact .pure rfl
termination_by c.size

theorem routine_leads (s : Session) (isFunction : Bool) (c : Cursor) :
    Leads s (Grammar.routine s.path s.scopes isFunction c)
      (fun t => (⟨(), t.rest, t.lt⟩, { s with scopes := t.value })) (routine isFunction c) := by
  rw [Grammar.routine, routine]
  apply Leads.get
  apply Leads.plain
  rintro ⟨⟨name, r⟩, c₁, h₁⟩
  apply (register_leads s name r _).bind
  intro scopes
  dsimp only
  split
  · apply Leads.plain
    rintro ⟨_, c₂, h₂⟩
    apply Leads.plain
    rintro ⟨_, c₃, h₃⟩
    exact .pure rfl
  · apply (enterBody_leads { s with scopes } name r).bind
    intro inner
    -- in the body no loop is around
    apply Leads.beside rfl
    apply (declarations_leads _ c₁).bind
    rintro ⟨inner, c₂, h₂⟩
    apply (compound_leads _ c₂).kept
    rintro ⟨ss, c₃, h₃⟩
    apply Leads.plain
    rintro ⟨_, c₄, h₄⟩
    apply Leads.change
    apply Leads.beside (leaveBody_eq _ name ss)
    apply Leads.pure
    dsimp only
    rw [List.dropLast_concat]
    rfl
termination_by c.size

end

end Session

end MiniPascal
