import MiniPascal.Proofs.Reading.Everywhere

/-! Every `else` belongs to the nearest `if`. -/

namespace MiniPascal

namespace Stmt

/-- Whether an `else` behind the statement would belong to an `if` in it. -/
def endsOpen : Stmt → Bool
  | ifElse _ _ none => true
  | ifElse _ _ (some no) => no.endsOpen
  | forTo _ _ _ _ body | .while _ body => body.endsOpen
  | _ => false

/-- Every `else` belongs to the nearest `if`: no branch in front of an `else` ends with an open
`if`. -/
inductive Attached : Stmt → Prop
  | block {ss : List Stmt} (hs : ∀ s ∈ ss, Attached s) : Attached (block ss)
  | ifThen {c : Expr} {yes : Stmt} (hy : Attached yes) : Attached (ifElse c yes none)
  | ifElse {c : Expr} {yes no : Stmt} (hy : Attached yes) (hopen : yes.endsOpen = false)
    (hn : Attached no) : Attached (ifElse c yes (some no))
  | forTo {p : Position} {target first bound : Expr} {body : Stmt} (hs : Attached body) :
    Attached (forTo p target first bound body)
  | while {c : Expr} {body : Stmt} (hs : Attached body) : Attached (.while c body)
  | repeatUntil {c : Expr} {body : Stmt} (hs : Attached body) : Attached (repeatUntil body c)
  | assign {target e : Expr} : Attached (assign target e)
  | call {n : Name} {symbol : String} {args : List Expr} {params : List Ty}
    {returns : Option Ty} : Attached (call n symbol args params returns)
  | write {newline : Bool} {args : List WriteArg} : Attached (write newline args)
  | transition {kind : Transition} {p : Position} : Attached (transition kind p)

/-- A statement that has been read up to the cursor: every `else` in it belongs to the nearest `if`,
and none that follows would belong to one in it. -/
structure Settled (st : Stmt) (d : Cursor) : Prop where
  attached : st.Attached
  rest : st.endsOpen = true → d.seesKeyword .kwElse = false

/-- Statements that are neither conditional nor loops have no `if` to which an `else` could
belong. -/
theorem Settled.of_attached {st : Stmt} (h : st.Attached) (hopen : st.endsOpen = false)
    (d : Cursor) : st.Settled d where
  attached := h
  rest ho := by
    rw [hopen] at ho
    cases ho

end Stmt

namespace Cursor

variable {c : Cursor}

/-- A keyword is taken where it is in sight. -/
theorem acceptKeyword_seen (k : Keyword) :
    Read.Ensures (c.acceptKeyword k) fun o => o.isSome = c.seesKeyword k := by
  unfold acceptKeyword accept seesKeyword
  by_cases hend : c.current.kind = .endOfFile
  · rw [dif_pos hend, hend]
    exact .pure rfl
  · rw [dif_neg hend]
    by_cases hk : c.current.kind = .keyword k
    · simp only [hk, if_true, decide_true]
      refine .bind (Q := fun o => o.isSome = true) (.step fun _ => .pure rfl) ?_
      rintro (_ | ⟨⟨_, token⟩, d, h⟩) hsome
      · cases hsome
      · exact .pure rfl
    · simp only [hk, if_false, decide_false]
      exact .pure rfl

end Cursor

namespace Grammar

open Cursor

variable {s : Scopes}

/-- A statement that starts with a name is not conditional and no loop. -/
theorem namedStatement_settled (name : Located Name) (c : Cursor) :
    Read.Ensures (namedStatement s name c) fun t => t.value.Settled t.rest := by
  have hassign : Read.Ensures (assignment s name c) fun t => t.value.Settled t.rest := by
    unfold assignment
    refine .step ?_
    rintro ⟨target, c₁, h₁⟩
    refine .step fun o => ?_
    rcases o with _ | ⟨⟨op, token⟩, c₂, h₂⟩
    · exact missing_ensures
    · exact .step fun _ => .step fun _ => .step fun _ => .pure (.of_attached .assign rfl _)
  have hcall : Read.Ensures (callStatement s name c) fun t => t.value.Settled t.rest := by
    unfold callStatement
    exact .step fun _ => .step fun _ => .pure (.of_attached .call rfl _)
  unfold namedStatement
  split
  · unfold writeStatement
    refine .step fun o => ?_
    rcases o with _ | ⟨_, c₁, h₁⟩
    · exact .pure (.of_attached .write rfl _)
    · dsimp only
      split
      · exact .step fun _ => .pure (.of_attached .write rfl _)
      · exact .step fun _ => .step fun _ => .pure (.of_attached .write rfl _)
  · exact hcall
  · split
    · exact hcall
    · exact hassign

mutual

/-- Every `else` in what is read as a statement belongs to the nearest `if`, and so does one that
follows. -/
theorem statement_settled (b : Bool) (c : Cursor) :
    Read.Ensures (statement s b c) fun t => (t.value.getD .empty).Settled t.rest := by
  unfold statement
  split
  · -- a block
    refine .bind (compound_attached b c) ?_
    rintro ⟨ss, c₁, h₁⟩ hss
    exact .pure (.of_attached (.block hss) rfl _)
  · -- `if`
    refine .step ?_
    rintro ⟨_, c₁, h₁⟩
    refine .step ?_
    rintro ⟨test, c₂, h₂⟩
    refine .step ?_
    rintro ⟨_, c₃, h₃⟩
    refine .bind (body_settled b c₃) ?_
    rintro ⟨yes, c₄, h₄⟩ hy
    refine .bind (acceptKeyword_seen .kwElse) fun o ho => ?_
    rcases o with _ | ⟨_, c₅, h₅⟩
    · have hsettled : (Stmt.ifElse test yes none).Settled c₄ :=
        ⟨.ifThen hy.attached, fun _ => ho.symm⟩
      exact .pure hsettled
    · -- the `if` takes an `else` that no branch in front of it has taken
      have hopen : yes.endsOpen = false := by
        rw [← Bool.not_eq_true]
        intro hopen
        rw [hy.rest hopen] at ho
        cases ho
      refine .bind (body_settled b c₅) ?_
      rintro ⟨no, c₆, h₆⟩ hn
      have hsettled : (Stmt.ifElse test yes (some no)).Settled c₆ :=
        ⟨.ifElse hy.attached hopen hn.attached, hn.rest⟩
      exact .pure hsettled
  · -- `while`
    refine .step ?_
    rintro ⟨_, c₁, h₁⟩
    refine .step ?_
    rintro ⟨test, c₂, h₂⟩
    refine .step ?_
    rintro ⟨_, c₃, h₃⟩
    refine .bind (body_settled true c₃) ?_
    rintro ⟨st, c₄, h₄⟩ h
    have hsettled : (Stmt.while test st).Settled c₄ := ⟨.while h.attached, h.rest⟩
    exact .pure hsettled
  · -- `repeat`
    refine .step ?_
    rintro ⟨_, c₁, h₁⟩
    refine .bind (statements_attached true c₁) ?_
    rintro ⟨ss, c₂, h₂⟩ hss
    refine .step ?_
    rintro ⟨_, c₃, h₃⟩
    exact .step fun _ => .pure (.of_attached (.repeatUntil (.block hss)) rfl _)
  · -- `for`
    refine .step ?_
    rintro ⟨token, c₁, h₁⟩
    refine .step ?_
    rintro ⟨⟨target, first, bound⟩, c₂, h₂⟩
    refine .step ?_
    rintro ⟨_, c₃, h₃⟩
    refine .bind (body_settled true c₃) ?_
    rintro ⟨st, c₄, h₄⟩ h
    have hsettled : (Stmt.forTo token.position target first bound st).Settled c₄ :=
      ⟨.forTo h.attached, h.rest⟩
    exact .pure hsettled
  · -- a statement with a name in front
    refine .step ?_
    rintro ⟨name, c₁, h₁⟩
    refine .bind (namedStatement_settled name c₁) ?_
    rintro ⟨st, c₂, h₂⟩ h
    exact .pure h
  · -- nothing, or `break` and `continue`
    refine .step fun o => ?_
    rcases o with _ | ⟨⟨kind, token⟩, c₁, h₁⟩
    · have hempty : Stmt.empty.Attached := .block (List.forall_mem_nil _)
      exact .pure (.of_attached hempty rfl _)
    · dsimp only
      split
      · exact .pure (.of_attached .transition rfl _)
      · exact .error
termination_by 4 * c.size + 1

theorem body_settled (b : Bool) (c : Cursor) :
    Read.Ensures (body s b c) fun t => t.value.Settled t.rest := by
  unfold body
  refine .bind (statement_settled b c) ?_
  rintro ⟨st, c₁, h₁⟩ h
  exact .pure h
termination_by 4 * c.size + 2

theorem statements_attached (b : Bool) (c : Cursor) :
    Read.Ensures (statements s b c) fun t => ∀ st ∈ t.value, st.Attached := by
  unfold statements
  refine .bind (statement_settled b c) ?_
  rintro ⟨st, c₁, h₁⟩ h
  have hone : ∀ st' ∈ st.toList, st'.Attached := by
    intro st' hst
    cases st with
    | none => cases hst
    | some st =>
      cases List.mem_singleton.1 hst
      exact h.attached
  refine .step fun o => ?_
  rcases o with _ | ⟨_, c₂, h₂⟩
  · exact .pure hone
  · refine .bind (statements_attached b c₂) ?_
    rintro ⟨ss, c₃, h₃⟩ hss
    exact .pure (List.forall_mem_append.2 ⟨hone, hss⟩)
termination_by 4 * c.size + 2

theorem compound_attached (b : Bool) (c : Cursor) :
    Read.Ensures (compound s b c) fun t => ∀ st ∈ t.value, st.Attached := by
  unfold compound
  refine .step ?_
  rintro ⟨_, c₁, h₁⟩
  refine .bind (statements_attached b c₁) ?_
  rintro ⟨ss, c₂, h₂⟩ hss
  exact .step fun _ => .pure hss
termination_by 4 * c.size

end

end Grammar

/-- Every `else` of a program that has been read belongs to the nearest `if`. -/
theorem Program.ofText_attached {text name : String} {p : Program}
    (h : ofText text name = .ok p) :
    p.Meets Ty.WellFormed fun ss => ∀ st ∈ ss, st.Attached := by
  have hinherits : Grammar.Inherits text.length Ty.WellFormed
      fun ss => ∀ st ∈ ss, st.Attached := by
    refine ⟨fun _ => id, ?_, ?_⟩
    · intro s c hs hc _
      have hsound := hs.sound_of_meets fun _ => id
      exact (Grammar.typeName_wellFormed hsound hc).mono fun _ ht => ht.1
    · intro s c _ _ _
      exact Grammar.compound_attached false c
  exact ofText_meets hinherits h

end MiniPascal
