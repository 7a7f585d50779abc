import Mathlib
import MiniPascal.Grammar.Program
import MiniPascal.Proofs.Checked.Resolution
import MiniPascal.Proofs.Reading.Ensures

/-! What the names of calls and at the heads of statements resolve to: three rules that work
together. -/

namespace MiniPascal

/-- The variable of a name, or what is selected from it. -/
inductive Expr.PartOf (n : Name) : Expr → Prop
  | var {p : Position} {t : Ty} {st : Storage} : PartOf n (.var p t n st)
  | index {p : Position} {t : Ty} {a i : Expr} (h : PartOf n a) : PartOf n (.index p t a i)
  | field {p : Position} {t : Ty} {r : Expr} {m : Name} {slot : Nat} (h : PartOf n r) :
    PartOf n (.field p t r m slot)

theorem Expr.PartOf.checkIndex {n : Name} {a i e : Expr} {p : Position} (ha : a.PartOf n)
    (h : checkIndex a i p = .ok e) : e.PartOf n := by
  obtain ⟨_, _, t, -, -, rfl⟩ := Expr.checkIndex_ok h
  exact .index ha

theorem Expr.PartOf.checkField {n m : Name} {r e : Expr} {p : Position} (hr : r.PartOf n)
    (h : checkField r m p = .ok e) : e.PartOf n := by
  unfold Expr.checkField at h
  cases ht : Typing.field r.type m p with
  | error _ => rw [ht] at h; cases h
  | ok t => rw [ht] at h; cases h; exact .field hr

namespace Grammar

/-- What a name at the head of a statement can have become. The flag tells whether a parenthesis
follows the name. -/
inductive HeadOf (s : Scopes) (n : Name) (parenthesis : Bool) : Stmt → Prop
  | call {r : Routine} {args : List Expr} (hr : s.innermostRoutine? n = some r)
    (h : parenthesis = true ∨ s.innermost? n = some (.routine r)) :
    HeadOf s n parenthesis (.call n r.symbol args r.paramTypes r.returns)
  | assign {p : Position} {t : Ty} {target value : Expr} (h : s.innermost? n = some (.var p t))
    (hp : parenthesis = false) (ht : target.PartOf n) :
    HeadOf s n parenthesis (.assign target value)
  | write {newline : Bool} {args : List WriteArg} (hw : writes? n = some newline)
    (h : s.innermost? n = none ∨ s.Captured n) : HeadOf s n parenthesis (.write newline args)

/-- What a name in an expression can have become. -/
inductive ValueOf (s : Scopes) (n : Name) (parenthesis : Bool) : Expr → Prop
  | call {p : Position} {t : Ty} {r : Routine} {args : List Expr}
    (hr : s.innermostRoutine? n = some r) (ht : r.returns = some t)
    (h : parenthesis = true ∨ s.innermost? n = some (.routine r)) :
    ValueOf s n parenthesis (.call p t n r.symbol args r.paramTypes)
  | var {p : Position} {t : Ty} {e : Expr} (h : s.innermost? n = some (.var p t))
    (hp : parenthesis = false) (he : e.PartOf n) : ValueOf s n parenthesis e
  | const {p q : Position} {v : Expr} {k : Constant} (h : s.innermost? n = some (.const p v))
    (hp : parenthesis = false) : ValueOf s n parenthesis (.ofConstant k q)

variable {s : Scopes}

mutual

theorem selectors_partOf {n : Name} {e : Expr} (he : e.PartOf n) (c : Cursor) :
    Read.Ensures (selectors s e c) fun t => t.value.PartOf n := by
  unfold selectors
  refine .step fun o => ?_
  rcases o with _ | ⟨token, c₁, h₁⟩
  · dsimp only
    split
    · refine .step fun o => ?_
      rcases o with _ | ⟨token, c₁, h₁⟩
      · exact .pure he
      · refine .step ?_
        rintro ⟨name, c₂, h₂⟩
        refine .bind (Read.ensures_checked _) fun f hf => ?_
        refine .bind (selectors_partOf (he.checkField hf) c₂) ?_
        rintro ⟨e, c₃, h₃⟩ he
        exact .pure he
    · exact .pure he
  · refine .bind (indices_partOf he token.position c₁) ?_
    rintro ⟨a, c₂, h₂⟩ ha
    refine .step ?_
    rintro ⟨_, c₃, h₃⟩
    refine .bind (selectors_partOf ha c₃) ?_
    rintro ⟨e, c₄, h₄⟩ he
    exact .pure he
termination_by 16 * c.size

theorem indices_partOf {n : Name} {e : Expr} (he : e.PartOf n) (p : Position) (c : Cursor) :
    Read.Ensures (indices s e p c) fun t => t.value.PartOf n := by
  unfold indices
  refine .step ?_
  rintro ⟨idx, c₁, h₁⟩
  refine .bind (Read.ensures_checked _) fun a ha => .step fun o => ?_
  rcases o with _ | ⟨token, c₂, h₂⟩
  · exact .pure (he.checkIndex ha)
  · refine .bind (indices_partOf (he.checkIndex ha) token.position c₂) ?_
    rintro ⟨e, c₃, h₃⟩ he
    exact .pure he
termination_by 16 * c.size + 12

end

theorem callStatement_headOf {name : Located Name} {parenthesis : Bool} (c : Cursor)
    (h : ∀ r, s.lookupRoutine name = .ok r →
      parenthesis = true ∨ s.innermost? name.value = some (.routine r)) :
    Read.Ensures (callStatement s name c) fun t => HeadOf s name.value parenthesis t.value := by
  unfold callStatement
  refine .bind (Read.ensures_checked _) fun r hr => ?_
  refine .step ?_
  rintro ⟨args, c₁, h₁⟩
  refine .pure ?_
  exact .call (Scopes.lookupRoutine_eq_ok.1 hr) (h r hr)

theorem callOf_valueOf {name : Located Name} {parenthesis : Bool} (c : Cursor)
    (h : ∀ r, s.lookupRoutine name = .ok r →
      parenthesis = true ∨ s.innermost? name.value = some (.routine r)) :
    Read.Ensures (callOf s name c) fun t => ValueOf s name.value parenthesis t.value := by
  unfold callOf
  refine .bind (Read.ensures_checked _) fun r hr => ?_
  split
  · exact .error
  · rename_i t ht
    refine .step ?_
    rintro ⟨args, c₁, h₁⟩
    exact .pure (.call (Scopes.lookupRoutine_eq_ok.1 hr) ht (h r hr))

theorem assignment_headOf (name : Located Name) (c : Cursor) :
    Read.Ensures (assignment s name c) fun t => HeadOf s name.value false t.value := by
  unfold assignment designator
  refine .bind (Q := fun t => t.value.PartOf name.value ∧
    ∃ p t, s.innermost? name.value = some (.var p t)) ?_ ?_
  · refine .bind (Read.ensures_checked _) ?_
    rintro ⟨d, st⟩ hd
    rcases d with ⟨q, t⟩ | _ | _ | _
    · exact (selectors_partOf .var c).mono fun _ h => ⟨h, q, t, Scopes.lookup_eq_ok hd⟩
    · exact .error
    · exact .error
    · exact .error
  · rintro ⟨target, c₁, h₁⟩ ⟨ht, p, t, hd⟩
    refine .step fun o => ?_
    rcases o with _ | ⟨⟨op, token⟩, c₂, h₂⟩
    · exact Cursor.missing_ensures
    · refine .step ?_
      rintro ⟨value, c₃, h₃⟩
      exact .step fun value => .step fun _ => .pure (.assign hd rfl ht)

theorem writeStatement_headOf {n : Name} {newline parenthesis : Bool} (c : Cursor)
    (hw : writes? n = some newline) (h : s.innermost? n = none ∨ s.Captured n) :
    Read.Ensures (writeStatement s newline c) fun t => HeadOf s n parenthesis t.value := by
  unfold writeStatement
  refine .step fun o => ?_
  rcases o with _ | ⟨_, c₁, h₁⟩
  · exact .pure (.write hw h)
  · dsimp only
    split
    · refine .step ?_
      rintro ⟨_, c₂, h₂⟩
      exact .pure (.write hw h)
    · refine .step ?_
      rintro ⟨args, c₂, h₂⟩
      refine .step ?_
      rintro ⟨_, c₃, h₃⟩
      exact .pure (.write hw h)

/-- In every stack of scopes, a name at the head of a statement and a name in an expression become
what the three rules say: a call is one of the innermost routine of the name, whatever it is
declared as further in, and needs a parenthesis unless the routine is the innermost declaration. A
variable is assigned to or read, and a constant is read, only if that is the innermost declaration.
Writing needs a name that is not declared or whose innermost declaration cannot be reached. -/
theorem names_resolve (s : Scopes) (name : Located Name) (c : Cursor) :
    Read.Ensures (namedStatement s name c)
      (fun t => HeadOf s name.value (c.sees .openParen) t.value) ∧
    Read.Ensures (named s name c) fun t => ValueOf s name.value (c.sees .openParen) t.value := by
  -- if the name by itself is a routine, the call is one of that routine
  have hroutine : ∀ q st, s.lookup name = .ok ⟨.routine q, st⟩ → ∀ r, s.lookupRoutine name = .ok r →
      s.innermost? name.value = some (.routine r) := by
    intro q st hq r hr
    have hinner := Scopes.lookup_eq_ok hq
    have hcall := Scopes.lookupRoutine_eq_ok.1 hr
    rw [Scopes.innermostRoutine?_of_innermost? hinner, Option.some.injEq] at hcall
    rwa [hcall] at hinner
  constructor
  · unfold namedStatement
    split
    · rename_i e newline he hw
      exact writeStatement_headOf c hw (Scopes.lookup_eq_error he)
    · rename_i q st hq
      exact callStatement_headOf c fun r hr => .inr (hroutine q st hq r hr)
    · split
      · rename_i hp
        exact callStatement_headOf c fun _ _ => .inl hp
      · rename_i hp
        rw [Bool.not_eq_true] at hp
        rw [hp]
        exact assignment_headOf name c
  · unfold named
    split
    · rename_i hp
      exact callOf_valueOf c fun _ _ => .inl hp
    · rename_i hp
      rw [Bool.not_eq_true] at hp
      refine .bind (Read.ensures_checked _) ?_
      rintro ⟨d, st⟩ hd
      have hinner := Scopes.lookup_eq_ok hd
      rcases d with ⟨q, t⟩ | ⟨q, v⟩ | _ | q
      · exact (selectors_partOf .var c).mono fun _ h => .var hinner hp h
      · exact .step fun k => .pure (.const hinner hp)
      · exact .error
      · exact callOf_valueOf c fun r hr => .inr (hroutine q st hd r hr)

end Grammar

/-- The program of a text in which a local variable lies between a call and the routine that it
stands for. -/
theorem Program.ofText_shadowed :
    ofText "procedure p; begin end; procedure q; var p: integer; begin p() end; begin end." "t" =
      .ok ⟨"t", ⟨[
        (⟨"p"⟩, .routine ⟨⟨1, 11⟩, "p", .empty, none, some ⟨.empty, []⟩, false⟩),
        (⟨"q"⟩, .routine ⟨⟨1, 35⟩, "q", .empty, none,
          some ⟨⟨[(⟨"p"⟩, .var ⟨1, 42⟩ .integer)]⟩, [.call ⟨"p"⟩ "p" [] [] none]⟩, false⟩)]⟩,
        []⟩ := by
  cbv

end MiniPascal
