import MiniPascal.Proofs.Phrase.Complete
import MiniPascal.Proofs.Recoding.Statement

/-! An assignment with an operator is read as the plain assignment that it stands for. -/

namespace MiniPascal

open Grammar Token Cursor Read Recoding
open Cursor.Within

/-- The symbol that applies an operator to a variable and assigns the result. -/
def BinOp.assignSymbol? : BinOp → Option Symbol
  | .add => some .plusAssign
  | .sub => some .minusAssign
  | .mul => some .timesAssign
  | .divide => some .slashAssign
  | _ => none

theorem BinOp.assignment?_symbol {op : BinOp} {x : Symbol} (h : op.assignSymbol? = some x) :
    assignment? (.symbol x) = some (some op) := by
  cases op <;> cases h <;> rfl

/-- An assignment with an operator. -/
def Token.compoundAssign (x : Symbol) (target value : List Token) : List Token :=
  target ++ ofSymbol x :: value

/-- The assignment that it stands for. -/
def Token.expanded (op : BinOp) (target value : List Token) : List Token :=
  target ++ ofSymbol .assign :: (target ++ op.token :: group value)

/-! ### Readings up to a cursor -/

/-- The kinds of tokens that end statements. -/
def Token.Kind.endsStatement : Kind → Bool
  | .symbol .semicolon | .keyword .kwElse | .keyword .kwEnd | .keyword .kwUntil => true
  | _ => false

/-- No phrase starts with what ends statements. -/
theorem Token.endsStatement_phrase {t : Token} {ts : List Token} (h : isPhrase 0 (t :: ts) = true) :
    t.kind.endsStatement = false := by
  unfold Kind.endsStatement
  split
  all_goals first
    | rfl
    | rename_i hkind
      exact absurd hkind (kind_ne_of_isPhrase h rfl)

variable {α β : Type} {c c' d : Cursor}

/-- A reading that does not get to the cursor is refused: with its fault, or since it stops before
with something in sight that ends no statement, and so stands where a symbol is missing. -/
inductive Read.Refused (d : Cursor) : Read (Passed c α) → Fault.Kind → Prop
  | fault {f : Located Fault} {κ : Fault.Kind} (h : f.value.kind = κ) : Refused d (.error f) κ
  | early {t : Passed c α} (hlt : d.size < t.rest.size)
    (hends : t.rest.current.kind.endsStatement = false) :
    Refused d (.ok t) .unexpectedSymbolBefore

namespace Read.Refused

variable {x : Read (Passed c α)} {κ : Fault.Kind}

theorem of_mapError (h : x.mapError (·.value.kind) = .error κ) : Refused d x κ := by
  cases x with
  | ok t => cases h
  | error f => exact .fault (Except.error.inj h)

theorem not_succeeds (h : Refused d x κ) (v : α) : ¬ x.Succeeds (·.Is v d) := by
  rintro ⟨t, rfl, hle, rfl⟩
  cases h with
  | early hlt => exact Nat.lt_irrefl _ hlt

theorem kind_eq {κ' : Fault.Kind} (h : Refused d x κ) (h' : Refused d x κ') : κ = κ' := by
  cases h with
  | fault h =>
    cases h' with
    | fault h' => exact h.symm.trans h'
  | early =>
    cases h' with
    | early => rfl

/-- A last step that cannot fail and reads nothing. -/
theorem map {b : Cursor} {g : α → β} {F : Passed c α → Read (Passed b β)} (h : Refused d x κ)
    (hF : ∀ v r hle, (F ⟨v, r, hle⟩).Succeeds (·.Is (g v) r)) : Refused d (x >>= F) κ := by
  cases h with
  | fault h => exact .fault h
  | @early t hlt hends =>
    obtain ⟨_, hx, hle, rfl⟩ := hF t.value t.rest t.le
    show Refused d (F t) _
    rw [hx]
    exact .early hlt hends

end Read.Refused

/-- Two readings up to a cursor agree: both get there with one value, or both are refused with
faults of one kind. Under the condition the first may find types that do not fit where the second
misses a symbol. -/
inductive Read.Agree (d : Cursor) (B : Prop) :
    Read (Passed c α) → Read (Passed c' α) → Prop
  | reach {x : Read (Passed c α)} {y : Read (Passed c' α)} {v : α} (hx : x.Succeeds (·.Is v d))
    (hy : y.Succeeds (·.Is v d)) : Agree d B x y
  | refuse {x : Read (Passed c α)} {y : Read (Passed c' α)} {κ : Fault.Kind} (hx : Refused d x κ)
    (hy : Refused d y κ) : Agree d B x y
  | miss {x : Read (Passed c α)} {y : Read (Passed c' α)} (hx : Refused d x .unexpectedType)
    (hy : Refused d y .unexpectedSymbolBefore) (hB : B) : Agree d B x y

namespace Read.Agree

variable {x : Read (Passed c α)} {y : Read (Passed c' α)} {B : Prop}

theorem fail {f f' : Located Fault} (h : f.value.kind = f'.value.kind) :
    Agree d B (.error f : Read (Passed c α)) (.error f' : Read (Passed c' α)) :=
  .refuse (.fault h) (.fault rfl)

theorem stop {t : Passed c α} {t' : Passed c' α} (ht : d.size < t.rest.size)
    (ht' : d.size < t'.rest.size) (hends : t.rest.current.kind.endsStatement = false)
    (hends' : t'.rest.current.kind.endsStatement = false) :
    Agree d B (.ok t) (.ok t') :=
  .refuse (.early ht hends) (.early ht' hends')

/-- Both get to the cursor with the same values. -/
theorem succeeds_iff (h : Agree d B x y) (v : α) :
    x.Succeeds (·.Is v d) ↔ y.Succeeds (·.Is v d) := by
  cases h with
  | reach hx hy =>
    obtain ⟨_, rfl, hle, rfl⟩ := hx
    obtain ⟨_, rfl, hle', rfl⟩ := hy
    constructor
    · rintro ⟨_, hx, hle, rfl⟩
      cases hx
      exact .ok ⟨_, rfl⟩
    · rintro ⟨_, hy, hle, rfl⟩
      cases hy
      exact .ok ⟨_, rfl⟩
  | refuse hx hy => exact iff_of_false (hx.not_succeeds v) (hy.not_succeeds v)
  | miss hx hy => exact iff_of_false (hx.not_succeeds v) (hy.not_succeeds v)

/-- A last step that cannot fail and reads nothing. -/
theorem map {b b' : Cursor} {g : α → β} {F : Passed c α → Read (Passed b β)}
    {F' : Passed c' α → Read (Passed b' β)} (h : Agree d B x y)
    (hF : ∀ v r hle, (F ⟨v, r, hle⟩).Succeeds (·.Is (g v) r))
    (hF' : ∀ v r hle, (F' ⟨v, r, hle⟩).Succeeds (·.Is (g v) r)) :
    Agree d B (x >>= F) (y >>= F') := by
  cases h with
  | reach hx hy =>
    obtain ⟨_, rfl, hle, rfl⟩ := hx
    obtain ⟨_, rfl, hle', rfl⟩ := hy
    exact .reach (hF _ _ hle) (hF' _ _ hle')
  | refuse hx hy => exact .refuse (hx.map hF) (hy.map hF')
  | miss hx hy hB => exact .miss (hx.map hF) (hy.map hF') hB

end Read.Agree

/-! ### Faults in operands -/

section

variable {s : Scopes} {p : Precedence} {a b e : Expr} {f : Located Fault} {t : Token} {op : BinOp}

/-- What goes wrong behind the first operand. -/
theorem operation_of_operations (h : Succeeds (operand s p c) (·.Is a d))
    (hf : operations s p a d = .error f) : operation s p c = .error f := by
  obtain ⟨_, hx, hlt, rfl⟩ := h
  unfold Grammar.operation
  rw [hx]
  show (operations s p a d >>= _) = _
  rw [hf]
  rfl

theorem operations_right (hop : p.operator? t.kind = some op) (h : operand s p d = .error f) :
    operations s p a (d.push t) = .error f := by
  obtain ⟨_, hx, _, rfl, hlt, rfl⟩ := accept_push (c := d) (by cases p <;> rfl) hop
  unfold operations
  rw [hx]
  show (operand s p d >>= _) = _
  rw [h]
  rfl

theorem operations_check {g : Cursor} (hop : p.operator? t.kind = some op)
    (h : Succeeds (operand s p d) (·.Is b g))
    (hf : Read.checked (Expr.checkBinary op a b t.position) = .error f) :
    operations s p a (d.push t) = .error f := by
  obtain ⟨_, hx, _, rfl, hlt, rfl⟩ := accept_push (c := d) (by cases p <;> rfl) hop
  obtain ⟨_, hy, hlt', rfl⟩ := h
  unfold operations
  rw [hx]
  show (operand s p d >>= _) = _
  rw [hy]
  show (Read.checked _ >>= _) = _
  rw [hf]
  rfl

/-! ### Parentheses -/

theorem unary_group_error {ts : List Token}
    (h : expression s ((d.push (ofSymbol .closeParen)).behind ts) = .error f) :
    unary s (d.behind (group ts)) = .error f := by
  obtain ⟨hlt, heq⟩ := unary_group_eq s d ts
  rw [heq, h]
  rfl

theorem unary_group_missing {ts : List Token} {g : Cursor}
    (h : Succeeds (expression s ((d.push (ofSymbol .closeParen)).behind ts)) (·.Is e g))
    (hg : g.current.kind ≠ .symbol .closeParen) :
    ∃ f, unary s (d.behind (group ts)) = .error f ∧
      f.value.kind = .unexpectedSymbolBefore := by
  obtain ⟨hlt, heq⟩ := unary_group_eq s d ts
  obtain ⟨_, hx, hlt', rfl⟩ := h
  rw [heq, hx]
  show ∃ f, (symbol _ _ >>= _) = _ ∧ _
  rw [Cursor.symbol, expect_missing (.inl hg)]
  exact ⟨_, rfl, rfl⟩

end

/-! ### Assignments -/

section

variable {s : Scopes} {ts : List Token} {name : Located Name} {a : Expr} {k o : Cursor}

/-- What follows a designator and ends it. -/
structure Token.Kind.EndsPlace (kind : Kind) : Prop where
  identifier : kind ≠ .identifier
  openParen : kind ≠ .symbol .openParen
  openSquare : kind ≠ .symbol .openSquare
  dot : kind ≠ .symbol .dot

theorem selectors_endsPlace (hk : k.current.kind.EndsPlace) (ho : o.current.kind.EndsPlace)
    {R : Cursor → Cursor → Prop} (hR : R k o) (e : Expr) :
    Alike (Passed.Beside R) (selectors s e k) (selectors s e o) := by
  obtain ⟨_, hx, hle, rfl⟩ := selectors_none (s := s) (e := e) hk.openSquare hk.dot
  obtain ⟨_, hy, hle', rfl⟩ := selectors_none (s := s) (e := e) ho.openSquare ho.dot
  rw [hx, hy]
  exact .ok ⟨rfl, hR⟩

/-- What follows a place does not matter for it. -/
theorem designator_before (hts : isPhrase 0 ts = true) (hk : k.current.kind.EndsPlace)
    (ho : o.current.kind.EndsPlace)
    (h : Succeeds (designator s name (k.behind ts)) (·.Is a k)) :
    Succeeds (designator s name (o.behind ts)) (·.Is a o) := by
  -- one reading ends at the end of the phrase if and only if the other does
  have hend : ∀ us, isPhrase 0 us = true → (k.behind us = k ↔ o.behind us = o) := by
    intro us hus
    by_cases hne : us = []
    · rw [hne]
      exact iff_of_true rfl rfl
    · refine iff_of_false ?_ ?_ <;>
      · intro hself
        have hlt := congrArg size hself
        exact absurd hlt (Nat.ne_of_gt (size_lt_behind (kinds_of_isPhrase hus) hne))
  have hselectors (e : Expr) : Alike (Passed.Beside fun r r' => r = k ↔ r' = o)
      (selectors s e (k.behind ts)) (selectors s e (o.behind ts)) :=
    selectors_within hend (fun _ => ⟨hk.identifier, ho.identifier⟩)
      (fun _ => selectors_endsPlace hk ho (iff_of_true rfl rfl)) e ⟨ts, hts, rfl, rfl⟩
  refine ((designator_alike hselectors name).succeeds_iff ?_).1 h
  rintro t t' ⟨hvalue, hrest⟩
  rw [Passed.is_iff, Passed.is_iff, hvalue, hrest]

/-- A place is also read where an expression starts with a name. -/
theorem named_of_designator (hcall : c.current.kind ≠ .symbol .openParen)
    (h : Succeeds (designator s name c) (·.Is a d)) : Succeeds (named s name c) (·.Is a d) := by
  unfold designator at h
  unfold named
  rw [sees_of_ne hcall]
  cases hlookup : s.lookup name with
  | error e =>
    rw [hlookup] at h
    obtain ⟨_, hx, -⟩ := h
    cases hx
  | ok found =>
    rw [hlookup] at h
    obtain ⟨declared, storage⟩ := found
    cases declared with
    | var q t => exact h
    | const | type | routine =>
      obtain ⟨_, hx, -⟩ := h
      cases hx

/-- What has been read as the place to assign to is read as an operand too. -/
theorem unary_of_designator {t : Token} (ht : t.kind = .identifier)
    (hts : isPhrase 0 ts = true) (hcall : ts.head?.map (·.kind) ≠ some (.symbol .openParen))
    (hk : k.current.kind.EndsPlace) (ho : o.current.kind.EndsPlace)
    (h : Succeeds (designator s ⟨t.position, ⟨t.text⟩⟩ (k.behind ts)) (·.Is a k)) :
    Succeeds (unary s ((o.behind ts).push t)) (·.Is a o) := by
  have hnamed := named_of_designator (behind_openParen hcall ho.openParen)
    (designator_before hts hk ho h)
  have hkind : ((o.behind ts).push t).current.kind = .identifier := ht
  refine Expr.unary_of_primary (by rw [hkind]; rfl) ?_
  unfold primary
  rw [hkind]
  apply Succeeds.bind (identifier_push ht)
  rintro _ ⟨h₁, rfl⟩
  apply Succeeds.bind hnamed
  rintro _ ⟨h₂, rfl⟩
  exact .pure ⟨_, rfl⟩

/-- The value of an assignment to a place that has been read, and its checks. -/
def assigned (s : Scopes) (op : Option BinOp) (target : Expr) (p : Position) (c : Cursor) :
    Read (Passed c Stmt) := do
  let ⟨value, c₁, h₁⟩ ← expression s c
  let value ← assignedValue op target value p
  Read.checked (Typing.checkAssignable target.type value "in assignment")
  return Taken.mk (.assign target value) c₁ h₁ |>.passed

theorem assignment_eq (s : Scopes) (name : Located Name) (c : Cursor) :
    assignment s name c = do
      let ⟨target, c₁, h₁⟩ ← designator s name c
      match ← c₁.accept assignment? with
      | none => c₁.missing (.symbol .assign)
      | some ⟨(op, token), c₂, h₂⟩ =>
        let ⟨st, c₃, h₃⟩ ← assigned s op target token.position c₂
        return Passed.mk st c₃ h₃ |>.after h₂ |>.past h₁ |>.passed := by
  unfold assignment
  refine bind_congr fun ⟨target, c₁, h₁⟩ => bind_congr fun o => ?_
  rcases o with _ | ⟨⟨op, token⟩, c₂, h₂⟩
  · rfl
  · unfold assigned
    simp only [bind_assoc, pure_bind]
    rfl

/-- The checks of an assignment find nothing but types that do not fit. -/
theorem kind_of_checkBinary {op : BinOp} {l r : Expr} {p : Position} {e : Located SemanticError}
    (h : Expr.checkBinary op l r p = .error e) :
    (Fault.semantic e.value).kind = .unexpectedType := by
  unfold Expr.checkBinary Typing.binary at h
  cases hresult : op.result? l.type r.type with
  | some t =>
    rw [hresult] at h
    cases h
  | none =>
    rw [hresult] at h
    cases h
    rfl

theorem kind_of_checkAssignable {t : Ty} {v : Expr} {context : String}
    {e : Located SemanticError} (h : Typing.checkAssignable t v context = .error e) :
    (Fault.semantic e.value).kind = .unexpectedType := by
  unfold Typing.checkAssignable at h
  split at h
  · cases h
  · cases h
    rfl

/-- An expression that is read, but not up to the cursor. -/
def Read.BreaksOff (d : Cursor) (x : Read (Taken c Expr)) : Prop :=
  x.Succeeds fun t => d.size < t.rest.size

/-- Where the value of an assignment breaks off, so does the assignment, unless the types do not
fit. -/
theorem refused_assigned (op : BinOp) {p : Position} {e : Expr} {g : Cursor}
    (h : Succeeds (expression s c) (·.Is e g)) (hg : d.size < g.size)
    (hends : g.current.kind.endsStatement = false) :
    Refused d (assigned s (some op) a p c) .unexpectedType ∨
      Refused d (assigned s (some op) a p c) .unexpectedSymbolBefore := by
  obtain ⟨_, hx, hlt, rfl⟩ := h
  unfold assigned
  rw [hx]
  show Refused d (Read.checked (Expr.checkBinary op a e p) >>= _) _ ∨
    Refused d (Read.checked (Expr.checkBinary op a e p) >>= _) _
  -- the types are checked where the value breaks off, before anything asks for an end
  cases hvalue : Expr.checkBinary op a e p with
  | error f => exact .inl (.fault (kind_of_checkBinary hvalue))
  | ok b =>
    show Refused d (Read.checked (Typing.checkAssignable a.type b _) >>= _) _ ∨
      Refused d (Read.checked (Typing.checkAssignable a.type b _) >>= _) _
    cases hcheck : Typing.checkAssignable a.type b "in assignment" with
    | error f => exact .inl (.fault (kind_of_checkAssignable hcheck))
    | ok => exact .inr (.early hg hends)

/-- The value is read up to the end in both assignments. -/
theorem assigned_complete {op : BinOp} {t u : Token} {p : Position} {x : Symbol} {e : Expr}
    {B : Prop}
    (hop : op.assignSymbol? = some x) (hoperator : op.precedence.operator? u.kind = some op)
    (hpos : u.position = t.position) (hd : d.current.kind.isForeign = true)
    (hleft : Succeeds (operand s op.precedence c) (·.Is a (k.push u)))
    (hshort : Succeeds (expression s o) (·.Is e d))
    (hright : Succeeds (operand s op.precedence k) (·.Is e d)) :
    Agree d B (assigned s (some op) a t.position o) (assigned s none a p c) := by
  obtain ⟨_, hx, hlt, rfl⟩ := hshort
  unfold assigned
  rw [hx]
  show Agree d B (Read.checked _ >>= _) _
  rw [← hpos]
  cases hvalue : Expr.checkBinary op a e u.position with
  -- the long form meets the same fault when it checks the operator
  | error q =>
    have hf : Read.checked (Expr.checkBinary op a e u.position) =
        .error (q.map Fault.semantic) := by
      rw [hvalue]
      rfl
    rw [expression_error (operation_of_operations hleft (operations_check hoperator hright hf))]
    exact .fail rfl
  | ok b =>
    -- the group is the right operand, and nothing behind it goes on with the expression
    have hcontinues := (continues_of_operand hleft).operator hoperator hright hvalue
    have hlong : Succeeds (expression s c) (·.Is b d) := by
      have hlt : op.precedence.height < Precedence.relational.height := by
        cases op <;> first | decide | cases hop
      unfold expression
      exact (continues_of_operand (hcontinues.operand hlt (closes_of_isForeign hd _))).operation
        (closes_of_isForeign hd _)
    obtain ⟨_, hz, hlt', rfl⟩ := hlong
    rw [hz]
    show Agree d B (Read.checked (Typing.checkAssignable a.type b "in assignment") >>= _)
      (Read.checked (Typing.checkAssignable a.type b "in assignment") >>= _)
    cases Read.checked (Typing.checkAssignable a.type b "in assignment") with
    | error f => exact .fail rfl
    | ok => exact .reach (.ok ⟨_, rfl⟩) (.ok ⟨_, rfl⟩)

/-- The operator in front of the assignment, and behind the place in its value. -/
theorem assigned_agree {op : BinOp} {t u : Token} {p : Position} {x : Symbol}
    (hop : op.assignSymbol? = some x) (hu : u.kind = op.token.kind)
    (hpos : u.position = t.position) (hts : isPhrase 0 ts = true)
    (hd : d.current.kind.isForeign = true)
    (hleft : Succeeds (unary s c) (·.Is a ((d.behind (group ts)).push u))) :
    Agree d (BreaksOff d (expression s (d.behind ts)))
      (assigned s (some op) a t.position (d.behind ts)) (assigned s none a p c) := by
  let close := d.push (ofSymbol .closeParen)
  have hends : d.Ends close 0 := fun _ => ⟨hd, rfl⟩
  have hoperator : op.precedence.operator? u.kind = some op := by
    rw [hu]
    exact op.operator?_token
  have hcloses : ((d.behind (group ts)).push u).current.kind.Closes (op.precedence.height - 1) := by
    show u.kind.Closes _
    rw [hu]
    exact op.token_closes
  -- the place is the left operand of the operator in the long form
  have hoperand := operand_of_unary (p := op.precedence) hleft hcloses
  obtain ⟨f, f', hx, hy, hkind⟩ | ⟨⟨e, r, hr⟩, ⟨e', r', hr'⟩, hx, hy, rfl, hrest⟩ :=
    (expression_within (s := s) hends ⟨ts, hts, rfl, rfl⟩).cases
  · -- a fault in the value
    have hlong : expression s c = .error f' :=
      expression_error (operation_of_operations hoperand
        (operations_right hoperator (operand_error (unary_group_error hy) _)))
    unfold assigned
    rw [hx, hlong]
    exact .fail hkind
  · have hrest : Within d close 0 r r' := hrest
    obtain ⟨t', ts', hts', rfl, rfl⟩ | ⟨-, hr₁, hr₁'⟩ := hrest.cases
    · -- the value ends before the phrase does
      have hmissing : t'.kind ≠ .symbol .closeParen := kind_ne_of_isPhrase hts' rfl
      obtain ⟨f', hf', hfault⟩ := unary_group_missing ⟨_, hy, _, rfl⟩ hmissing
      have hlong : expression s c = .error f' :=
        expression_error (operation_of_operations hoperand
          (operations_right hoperator (operand_error hf' _)))
      have hmiss : Refused d (assigned s none a p c) .unexpectedSymbolBefore := by
        unfold assigned
        rw [hlong]
        exact .fault hfault
      have hlt : d.size < (d.behind (t' :: ts')).size :=
        size_lt_behind (kinds_of_isPhrase hts') (List.cons_ne_nil _ _)
      obtain hshort | hshort := refused_assigned op ⟨_, hx, _, rfl⟩ hlt
        (endsStatement_phrase hts')
      · exact .miss hshort hmiss ⟨_, hx, hlt⟩
      · exact .refuse hshort hmiss
    · -- the value is all of the phrase
      have hshort : Succeeds (expression s (d.behind ts)) (·.Is e d) :=
        ⟨_, hx, Taken.is_iff.2 ⟨rfl, hr₁⟩⟩
      have hright : Succeeds (operand s op.precedence (d.behind (group ts))) (·.Is e d) :=
        operand_of_unary (unary_group ⟨_, hy, Taken.is_iff.2 ⟨rfl, hr₁'⟩⟩)
          (closes_of_isForeign hd _)
      exact assigned_complete hop hoperator hpos hd hoperand hshort hright

theorem BinOp.endsPlace_assignSymbol {op : BinOp} {x : Symbol} (h : op.assignSymbol? = some x) :
    Kind.EndsPlace (.symbol x) := by
  cases op <;> cases h <;> exact ⟨nofun, nofun, nofun, nofun⟩

theorem BinOp.endsPlace_token (op : BinOp) : op.token.kind.EndsPlace := by
  cases op <;> exact ⟨nofun, nofun, nofun, nofun⟩

/-- No phrase starts with an assignment. -/
theorem assignment?_phrase {t : Token} (h : isPhrase 0 (t :: ts) = true) :
    assignment? t.kind = none := by
  unfold assignment?
  split
  all_goals first
    | rfl
    | rename_i hkind
      exact absurd hkind (kind_ne_of_isPhrase h rfl)

/-- An assignment with an operator and the one it stands for, behind the name of the variable. -/
theorem assignment_agree {op : BinOp} {n t u v : Token} {x : Symbol} {ss : List Token}
    (hop : op.assignSymbol? = some x) (hn : n.kind = .identifier) (ht : t.kind = .symbol x)
    (hu : u.kind = .symbol .assign) (hv : v.kind = op.token.kind) (hpos : v.position = t.position)
    (hss : isPhrase 0 ss = true) (hcall : ss.head?.map (·.kind) ≠ some (.symbol .openParen))
    (hts : isPhrase 0 ts = true) (hd : d.current.kind.isForeign = true) :
    Agree d (BreaksOff d (expression s (d.behind ts)))
      (assignment s ⟨n.position, ⟨n.text⟩⟩ (((d.behind ts).push t).behind ss))
      (assignment s ⟨n.position, ⟨n.text⟩⟩
        ((((((d.behind (group ts)).push v).behind ss).push n).push u).behind ss)) := by
  let k := (d.behind ts).push t
  let o := (d.behind (group ts)).push v
  let k' := ((o.behind ss).push n).push u
  have hk : k.current.kind.EndsPlace := by
    show t.kind.EndsPlace
    rw [ht]
    exact BinOp.endsPlace_assignSymbol hop
  have hk' : k'.current.kind.EndsPlace := by
    show u.kind.EndsPlace
    rw [hu]
    exact ⟨nofun, nofun, nofun, nofun⟩
  have ho : o.current.kind.EndsPlace := by
    show v.kind.EndsPlace
    rw [hv]
    exact op.endsPlace_token
  have hselectors (e : Expr) : Alike (Passed.Beside (Within k k' 0))
      (selectors s e (k.behind ss)) (selectors s e (k'.behind ss)) :=
    selectors_within (fun ts hts => ⟨ts, hts, rfl, rfl⟩)
      (fun _ => ⟨hk.identifier, hk'.identifier⟩)
      (fun _ => selectors_endsPlace hk hk' ⟨[], rfl, rfl, rfl⟩) e ⟨ss, hss, rfl, rfl⟩
  have hplace := designator_alike hselectors ⟨n.position, ⟨n.text⟩⟩
  rw [assignment_eq, assignment_eq]
  obtain ⟨f, f', hx, hy, hkind⟩ | ⟨⟨a, r, hr⟩, ⟨a', r', hr'⟩, hx, hy, rfl, hrest⟩ := hplace.cases
  · -- a fault in the place
    rw [hx, hy]
    exact .fail hkind
  · have hrest : Within k k' 0 r r' := hrest
    obtain ⟨t', ts', hts', rfl, rfl⟩ | ⟨-, hr₁, hr₁'⟩ := hrest.cases
    · -- no assignment follows what has been read
      rw [hx, hy]
      show Agree d _ (Cursor.accept _ assignment? >>= _) (Cursor.accept _ assignment? >>= _)
      rw [accept_none (assignment?_phrase hts'), accept_none (assignment?_phrase hts')]
      exact .fail rfl
    · -- the place is all of the phrase, and reads again as an operand
      have hlong : Succeeds (designator s ⟨n.position, ⟨n.text⟩⟩ (k'.behind ss)) (·.Is a k') :=
        ⟨_, hy, Passed.is_iff.2 ⟨rfl, hr₁'⟩⟩
      have hleft := unary_of_designator hn hss hcall hk' ho hlong
      have hsymbol : assignment? t.kind = some (some op) := by
        rw [ht]
        exact op.assignment?_symbol hop
      have hassign : assignment? u.kind = some none := by
        rw [hu]
        rfl
      obtain ⟨_, hz, _, rfl, hlt, rfl⟩ := accept_push (c := d.behind ts) rfl hsymbol
      obtain ⟨_, hz', _, rfl, hlt', rfl⟩ := accept_push (c := (o.behind ss).push n) rfl hassign
      subst hr₁ hr₁'
      rw [hx, hy]
      show Agree d _ (Cursor.accept k _ >>= _) (Cursor.accept k' _ >>= _)
      rw [hz, hz']
      exact (assigned_agree hop hv hpos hts hd hleft).map (g := id) (fun v r hle => .ok ⟨_, rfl⟩)
        fun v r hle => .ok ⟨_, rfl⟩

/-! ### Statements -/

/-- Something is in sight before the cursor with which a statement neither ends nor takes
arguments. -/
structure Cursor.Stops (d c : Cursor) : Prop where
  lt : d.size < c.size
  ends : c.current.kind.endsStatement = false
  openParen : c.current.kind ≠ .symbol .openParen

theorem callStatement_agree {c' : Cursor} {B : Prop} (hc : d.Stops c) (hc' : d.Stops c') :
    Agree d B (callStatement s name c) (callStatement s name c') := by
  unfold callStatement
  cases Read.checked (s.lookupRoutine name) with
  | error f => exact .fail rfl
  | ok r =>
    show Agree d B (arguments s name r.paramTypes c >>= _) (arguments s name r.paramTypes c' >>= _)
    rw [arguments_none hc.openParen, arguments_none hc'.openParen]
    cases checkArguments name r.paramTypes [] with
    | error f => exact .fail rfl
    | ok => exact .stop hc.lt hc'.lt hc.ends hc'.ends

theorem writeStatement_agree {c' : Cursor} {newline : Bool} {B : Prop} (hc : d.Stops c)
    (hc' : d.Stops c') :
    Agree d B (writeStatement s newline c) (writeStatement s newline c') := by
  unfold writeStatement
  rw [acceptSymbol_none hc.openParen, acceptSymbol_none hc'.openParen]
  exact .stop hc.lt hc'.lt hc.ends hc'.ends

/-- A name that does not stand for a variable is taken as the same thing in both, and neither is
read to its end. -/
theorem namedStatement_agree {c' : Cursor} {B : Prop} (hc : d.Stops c) (hc' : d.Stops c')
    (h : Agree d B (assignment s name c) (assignment s name c')) :
    Agree d B (namedStatement s name c) (namedStatement s name c') := by
  unfold namedStatement
  rw [sees_of_ne hc.openParen, sees_of_ne hc'.openParen]
  cases s.lookup name with
  | error e =>
    cases writes? name.value with
    | none => exact h
    | some newline => exact writeStatement_agree hc hc'
  | ok found =>
    obtain ⟨declared, storage⟩ := found
    cases declared with
    | routine r => exact callStatement_agree hc hc'
    | var | const | type => exact h

/-- A statement that starts with a name. -/
theorem statement_named {b : Bool} {n : Token} (hn : n.kind = .identifier) :
    ∃ h, statement s b (c.push n) = do
      let ⟨st, c₂, h₂⟩ ← namedStatement s ⟨n.position, ⟨n.text⟩⟩ c
      return Passed.mk (some st) c₂ h₂ |>.after h |>.passed := by
  obtain ⟨_, hx, hlt, rfl⟩ := identifier_push (c := c) hn
  refine ⟨hlt, ?_⟩
  unfold statement
  rw [show (c.push n).current.kind = .identifier from hn]
  show (Cursor.identifier _ >>= _) = _
  rw [hx]
  rfl

/-- In front of the assignment, a phrase that is no call goes on with the statement. -/
theorem stops_behind {t : Token} {ss us : List Token} (hss : isPhrase 0 ss = true)
    (hcall : ss.head?.map (·.kind) ≠ some (.symbol .openParen))
    (ht : t.kind.endsStatement = false) (hparen : t.kind ≠ .symbol .openParen)
    (hus : ∀ u ∈ t :: us, u.kind ≠ .endOfFile) : d.Stops (d.behind (ss ++ t :: us)) where
  lt := size_lt_behind (List.forall_mem_append.2 ⟨kinds_of_isPhrase hss, hus⟩) (by simp)
  ends := by
    cases ss with
    | nil => exact ht
    | cons n ss => exact endsStatement_phrase hss
  openParen := by
    rw [behind_append]
    exact behind_openParen hcall hparen

/-- All tokens of an assignment with an operator and of the one it stands for. -/
theorem statement_agree {op : BinOp} {n t u v : Token} {x : Symbol} {ss : List Token} {b : Bool}
    (hop : op.assignSymbol? = some x) (hn : n.kind = .identifier) (ht : t.kind = .symbol x)
    (hu : u.kind = .symbol .assign) (hv : v.kind = op.token.kind) (hpos : v.position = t.position)
    (hss : isPhrase 0 ss = true) (hcall : ss.head?.map (·.kind) ≠ some (.symbol .openParen))
    (hts : isPhrase 0 ts = true) (hd : d.current.kind.isForeign = true) :
    Agree d (BreaksOff d (expression s (d.behind ts)))
      (statement s b (d.behind (n :: ss ++ t :: ts)))
      (statement s b (d.behind (n :: ss ++ u :: (n :: ss ++ v :: group ts)))) := by
  have hss' := kinds_of_isPhrase hss
  have hts' := kinds_of_isPhrase hts
  -- no token is the end of the text, so nothing that stops at one of them gets to the end
  have hgroup : ∀ t ∈ group ts, t.kind ≠ .endOfFile :=
    List.forall_mem_append.2 ⟨List.forall_mem_cons.2 ⟨nofun, hts'⟩,
      List.forall_mem_singleton.2 nofun⟩
  have hvkind : v.kind ≠ .endOfFile := by
    rw [hv]
    cases op <;> exact nofun
  have hshort : d.Stops (d.behind (ss ++ t :: ts)) := by
    refine stops_behind hss hcall ?_ ?_ (List.forall_mem_cons.2 ⟨by simp [ht], hts'⟩) <;>
    · rw [ht]
      cases op <;> cases hop <;> first | rfl | exact nofun
  have hlong : d.Stops (d.behind (ss ++ u :: (n :: ss ++ v :: group ts))) := by
    refine stops_behind hss hcall (by rw [hu]; rfl) (by rw [hu]; exact nofun) ?_
    exact List.forall_mem_cons.2 ⟨by simp [hu], List.forall_mem_append.2
      ⟨List.forall_mem_cons.2 ⟨by simp [hn], hss'⟩, List.forall_mem_cons.2 ⟨hvkind, hgroup⟩⟩⟩
  have hassign : Agree d (BreaksOff d (expression s (d.behind ts)))
      (assignment s ⟨n.position, ⟨n.text⟩⟩ (d.behind (ss ++ t :: ts)))
      (assignment s ⟨n.position, ⟨n.text⟩⟩
        (d.behind (ss ++ u :: (n :: ss ++ v :: group ts)))) := by
    rw [List.cons_append, behind_append, behind_append, behind_cons, behind_cons, behind_cons,
      behind_append, behind_cons]
    exact assignment_agree hop hn ht hu hv hpos hss hcall hts hd
  obtain ⟨h₁, heq⟩ := statement_named (s := s) (c := d.behind (ss ++ t :: ts)) (b := b) hn
  obtain ⟨h₁', heq'⟩ := statement_named (s := s)
    (c := d.behind (ss ++ u :: (n :: ss ++ v :: group ts))) (b := b) hn
  rw [List.cons_append, List.cons_append, behind_cons, behind_cons, heq, heq']
  refine (namedStatement_agree hshort hlong hassign).map (g := some) ?_ ?_
  · exact fun v r hle => .ok ⟨_, rfl⟩
  · exact fun v r hle => .ok ⟨_, rfl⟩

/-! ### Refusals -/

/-- A list of statements is refused as its first one is. -/
theorem statements_refused {b : Bool} {κ : Fault.Kind} (h : Refused d (statement s b c) κ) :
    Refused d (statements s b c) κ := by
  unfold statements
  revert h
  generalize statement s b c = x
  rintro (h | @⟨⟨st, r, hr⟩, hlt, hends⟩)
  · exact .fault h
  · have hnone : r.current.kind ≠ .symbol .semicolon := by
      intro hkind
      rw [hkind] at hends
      cases hends
    show Refused d (Cursor.acceptSymbol r .semicolon >>= _) _
    rw [acceptSymbol_none hnone]
    exact .early hlt hends

/-- Between keywords the refusal of the first statement is the fault that is reported, wherever its
reading has stopped. -/
theorem compound_refused {t : Token} {b : Bool} {κ : Fault.Kind} (ht : t.kind = .keyword .kwBegin)
    (h : Refused d (statement s b c) κ) :
    ∃ f, compound s b (c.push t) = .error f ∧ f.value.kind = κ := by
  obtain ⟨_, hx, hlt, rfl⟩ := keyword_push (c := c) ht
  unfold compound
  rw [hx]
  have hstatements := statements_refused h
  revert hstatements
  show Refused d (statements s b c) κ → ∃ f, (statements s b c >>= _) = _ ∧ _
  generalize statements s b c = x
  rintro (h | @⟨⟨ss, r, hr⟩, hlt, hends⟩)
  · exact ⟨_, rfl, h⟩
  · have hmissing : r.current.kind ≠ .keyword .kwEnd := by
      intro hkind
      rw [hkind] at hends
      cases hends
    show ∃ f, (Cursor.keyword r .kwEnd >>= _) = _ ∧ _
    rw [Cursor.keyword, expect_missing (.inl hmissing)]
    exact ⟨_, rfl, rfl⟩

end

/-! ### Positions -/

/-- A refusal does not depend on positions. -/
theorem refused_of_recodes {f : α → β} {x : Read (Passed c α)}
    {y : Read (Passed (erasing.cursor c) β)} {κ : Fault.Kind}
    (h : erasing.Recodes (erasing.passed f) x y) (hy : Refused (erasing.cursor d) y κ) :
    Refused d x κ := by
  rw [Recodes] at h
  subst h
  cases x with
  | error f =>
    cases hy with
    | fault h => exact .fault (by rwa [← kind_fault erasing f.value])
  | ok t =>
    cases hy with
    | early hlt hends =>
      rw [size_cursor] at hlt
      exact .early (hlt.trans_eq (size_cursor erasing t.rest)) hends

/-- Without positions, the two forms of an assignment agree. -/
theorem erased_agree {op : BinOp} {x : Symbol} {n : Token} {ss ts : List Token} {c c' d : Cursor}
    (hop : op.assignSymbol? = some x) (hn : n.kind = .identifier)
    (hss : Complete .selectors ss) (hts : Complete .expression ts)
    (hd : d.current.kind.isForeign = true)
    (hc : c.Shows (Token.compoundAssign x (n :: ss) ts) d)
    (hc' : c'.Shows (expanded op (n :: ss) ts) d) (s : Scopes) (b : Bool) :
    Agree (erasing.cursor d)
      (BreaksOff (erasing.cursor d)
        (expression s ((erasing.cursor d).behind (ts.map erasing.token))))
      (statement s b (erasing.cursor c)) (statement s b (erasing.cursor c')) := by
  have hgroup : (group ts).map erasing.token = group (ts.map erasing.token) := by
    simp only [group, List.map_append, List.map_cons, List.map_nil, erasing_ofSymbol]
  have hcursor : erasing.cursor c = (erasing.cursor d).behind
      (erasing.token n :: ss.map erasing.token ++
        erasing.token (ofSymbol x) :: ts.map erasing.token) := by
    rw [hc]
    simp only [Token.compoundAssign, List.map_append, List.map_cons]
  have hcursor' : erasing.cursor c' = (erasing.cursor d).behind
      (erasing.token n :: ss.map erasing.token ++ erasing.token (ofSymbol .assign) ::
        (erasing.token n :: ss.map erasing.token ++
          erasing.token op.token :: group (ts.map erasing.token))) := by
    rw [hc']
    simp only [expanded, List.map_append, List.map_cons, hgroup]
  rw [hcursor, hcursor']
  refine statement_agree hop hn rfl rfl rfl rfl ?_ ?_ ?_ hd
  · rw [isPhrase_erasing]
    exact hss.isPhrase (by simp)
  · rw [List.head?_map, Option.map_map]
    exact hss.head_ne
  · rw [isPhrase_erasing]
    exact hts.isPhrase (by simp)

/-- An expression that is not read to its end is read up to a selector that selects nothing. -/
theorem atSelector_of_breaksOff {s : Scopes} {ts : List Token} {d v : Cursor}
    (hts : Complete .expression ts) (hd : d.current.kind.isForeign = true) (hv : v.Shows ts d)
    (h : BreaksOff (erasing.cursor d) (expression (erasing.scopes s) (erasing.cursor v))) :
    (expression s v).Succeeds (·.rest.AtSelector) := by
  obtain ⟨t, ht, hlt⟩ := h
  have hselector : t.rest.AtSelector := by
    refine (expression_halts hts.erasing hv hd t ht).resolve_right fun hrest => ?_
    rw [hrest] at hlt
    exact Nat.lt_irrefl _ hlt
  obtain ⟨u, hu, rfl⟩ := (erasing.expression_cursor s v).exists_of_ok ht
  exact ⟨u, hu, hselector⟩

/-- An assignment with an operator is the plain assignment that it stands for. The target is a name
with selectors, and the value is an expression; what follows ends expressions. Wherever the two
statements stand, both are read up to their ends as the same statement, or both are refused. What is
refused has faults of one kind, but for a value that is read only up to a selector which selects
nothing: the parenthesis that is missing there may come before types that do not fit. -/
theorem statement_compound {op : BinOp} {x : Symbol} {n : Token} {ss ts : List Token}
    {c c' d : Cursor} (hop : op.assignSymbol? = some x) (hn : n.kind = .identifier)
    (hss : Complete .selectors ss) (hts : Complete .expression ts)
    (hd : d.current.kind.isForeign = true)
    (hc : c.Shows (Token.compoundAssign x (n :: ss) ts) d)
    (hc' : c'.Shows (expanded op (n :: ss) ts) d)
    (s : Scopes) (b : Bool) :
    (∀ st, (statement s b c).Succeeds (·.Like (Option.map erasing.stmt) st d) ↔
      (statement s b c').Succeeds (·.Like (Option.map erasing.stmt) st d)) ∧
    ((∃ st, (statement s b c).Succeeds (·.Like (Option.map erasing.stmt) st d)) ∨
      ∃ κ κ', Refused d (statement s b c) κ ∧ Refused d (statement s b c') κ' ∧
        (κ = κ' ∨ κ = .unexpectedType ∧ κ' = .unexpectedSymbolBefore ∧
          ∀ v : Cursor, v.Shows ts d → (expression s v).Succeeds (·.rest.AtSelector))) := by
  have hread := erasing.statement_cursor s b c
  have hread' := erasing.statement_cursor s b c'
  -- the two readings are compared without positions, which differ between the two texts
  have hagree := erased_agree hop hn hss hts hd hc hc' (erasing.scopes s) b
  refine ⟨fun st => ?_, ?_⟩
  · rw [passed_like_iff hread, passed_like_iff hread']
    exact hagree.succeeds_iff st
  · cases hagree with
    | reach hx => exact .inl ⟨_, (passed_like_iff hread).2 hx⟩
    | refuse hx hy =>
      exact .inr ⟨_, _, refused_of_recodes hread hx, refused_of_recodes hread' hy, .inl rfl⟩
    | miss hx hy hB =>
      -- the short form does not miss a parenthesis, so its fault may be another
      refine .inr ⟨_, _, refused_of_recodes hread hx, refused_of_recodes hread' hy,
        .inr ⟨rfl, rfl, fun v hv => atSelector_of_breaksOff hts hd hv ?_⟩⟩
      rwa [show erasing.cursor v = _ from hv]

/-- A product is assigned to an element, on one line and on two; a truth value has none, which both
tell. -/
theorem statement_compound_element :
    ∃ (s : Scopes) (st : Option Stmt) (c c' e e' d : Cursor),
      onText .start "a[2] *= 3 - 1;".toList ⟨1, 15⟩ = .ok c ∧
      onText .start "a[2] := a[2]\n  * (3 - 1);".toList ⟨2, 13⟩ = .ok c' ∧
      onText .start "a[2] *= true;".toList ⟨1, 14⟩ = .ok e ∧
      onText .start "a[2] := a[2] * (true);".toList ⟨1, 23⟩ = .ok e' ∧
      (statement s false c).Succeeds (·.Like (Option.map erasing.stmt) st d) ∧
      (statement s false c').Succeeds (·.Like (Option.map erasing.stmt) st d) ∧
      Refused d (statement s false e) .unexpectedType ∧
      Refused d (statement s false e') .unexpectedType := by
  let a : Ty := .array (.int .start 1) (.int .start 3) .integer
  let s : Scopes := ⟨⟨[(⟨"a"⟩, .var .start a)]⟩, []⟩
  let element : Expr := .index .start .integer (.var .start a ⟨"a"⟩ .global) (.int .start 2)
  let st : Stmt := .assign element (.binary .start .integer .mul element
    (.binary .start .integer .sub (.int .start 3) (.int .start 1)))
  let ss : List Token := [ofSymbol .openSquare, ofNat 2, ofSymbol .closeSquare]
  let ts : List Token := [ofNat 3, ofSymbol .minus, ofNat 1]
  let us : List Token := [ofKeyword .kwTrue]
  let d : Cursor := ⟨ofSymbol .semicolon, [], .start⟩
  have hop : BinOp.mul.assignSymbol? = some .timesAssign := rfl
  have hnumber (i : Nat) : Complete .unary [ofNat i] := .plain (.literal (.inl rfl))
  have hss : Complete .selectors ss :=
    .index rfl (.one (.operand (hnumber 2))) rfl .unselected
  have hts : Complete .expression ts := .operation .sub (hnumber 3) rfl (.operand (hnumber 1))
  have hus : Complete .expression us := .operand (.plain (.literal (.inr (.inr (.inl rfl)))))
  -- the four texts stand in front of the same semicolon
  obtain ⟨c, hread, hc⟩ : ∃ c, onText .start "a[2] *= 3 - 1;".toList ⟨1, 15⟩ = .ok c ∧
      c.Shows (Token.compoundAssign .timesAssign (ofName ⟨"a"⟩ :: ss) ts) d := exists_shows (by cbv)
  obtain ⟨c', hread', hc'⟩ : ∃ c',
      onText .start "a[2] := a[2]\n  * (3 - 1);".toList ⟨2, 13⟩ = .ok c' ∧
        c'.Shows (expanded .mul (ofName ⟨"a"⟩ :: ss) ts) d := exists_shows (by cbv)
  obtain ⟨e, hrefused, he⟩ : ∃ e, onText .start "a[2] *= true;".toList ⟨1, 14⟩ = .ok e ∧
      e.Shows (Token.compoundAssign .timesAssign (ofName ⟨"a"⟩ :: ss) us) d := exists_shows (by cbv)
  obtain ⟨e', hrefused', he'⟩ : ∃ e',
      onText .start "a[2] := a[2] * (true);".toList ⟨1, 23⟩ = .ok e' ∧
        e'.Shows (expanded .mul (ofName ⟨"a"⟩ :: ss) us) d := exists_shows (by cbv)
  -- without positions the reading can be evaluated
  have hst : (statement (erasing.scopes s) false (erasing.cursor c)).Succeeds
      (·.Is (some st) (erasing.cursor d)) := by
    rw [hc]
    exact ⟨⟨some st, erasing.cursor d, by decide⟩, by cbv, _, rfl⟩
  have hshort : (statement s false c).Succeeds (·.Like (Option.map erasing.stmt) (some st) d) :=
    (passed_like_iff (erasing.statement_cursor s false c)).2 hst
  have hsame := statement_compound hop rfl hss hts rfl hc hc' s false
  have hfault : Refused (erasing.cursor d) (statement (erasing.scopes s) false (erasing.cursor e))
      .unexpectedType := by
    rw [he]
    exact .of_mapError (by cbv)
  refine ⟨s, some st, c, c', e, e', d, hread, hread', hrefused, hrefused', hshort,
    (hsame.1 _).1 hshort, ?_⟩
  obtain ⟨st, hst⟩ | ⟨κ, κ', hx, hy, hkinds⟩ :=
    (statement_compound hop rfl hss hus rfl he he' s false).2
  · exact absurd ((passed_like_iff (erasing.statement_cursor s false e)).1 hst)
      (hfault.not_succeeds _)
  · obtain rfl := hx.kind_eq (refused_of_recodes (erasing.statement_cursor s false e) hfault)
    obtain rfl | ⟨-, -, hbreaks⟩ := hkinds
    · exact ⟨hx, hy⟩
    · -- the value is read up to its end
      obtain ⟨v, -, hv⟩ : ∃ v, onText .start "true;".toList ⟨1, 6⟩ = .ok v ∧ v.Shows us d :=
        exists_shows (by cbv)
      obtain ⟨t, ht, hselector⟩ := hbreaks v hv
      have hvalue : (expression (erasing.scopes s) (erasing.cursor v)).Succeeds
          (·.Is (.bool .start true) (erasing.cursor d)) := by
        rw [hv]
        exact ⟨⟨.bool .start true, erasing.cursor d, by decide⟩, by cbv, _, rfl⟩
      obtain ⟨t', ht', -, hrest⟩ := (taken_like_iff (erasing.expression_cursor s v)).2 hvalue
      rw [ht] at ht'
      cases ht'
      have hsemicolon : t.rest.current.kind = .symbol .semicolon := congrArg (·.current.kind) hrest
      rcases hselector with h | h <;> rw [hsemicolon] at h <;> cases h

/-- What is no record has no fields: the point behind it ends the value. A truth value and an
integer have no sum, but with parentheses around the value the one that is missing is found
first. -/
theorem statement_compound_unselected :
    ∃ (s : Scopes) (ts : List Token) (c c' d : Cursor), Complete .selectors [] ∧
      Complete .expression ts ∧ onText .start "b += x.y;".toList ⟨1, 10⟩ = .ok c ∧
      onText .start "b := b + (x.y);".toList ⟨1, 16⟩ = .ok c' ∧
      c.Shows (Token.compoundAssign .plusAssign [ofName ⟨"b"⟩] ts) d ∧
      c'.Shows (expanded .add [ofName ⟨"b"⟩] ts) d ∧
      Refused d (statement s false c) .unexpectedType ∧
      Refused d (statement s false c') .unexpectedSymbolBefore := by
  let s : Scopes := ⟨⟨[(⟨"b"⟩, .var .start .boolean), (⟨"x"⟩, .var .start .integer)]⟩, []⟩
  let ts : List Token := [ofName ⟨"x"⟩, ofSymbol .dot, ofName ⟨"y"⟩]
  let d : Cursor := ⟨ofSymbol .semicolon, [], .start⟩
  -- `x.y` is complete, whatever `x` is
  have hts : Complete .expression ts := .operand (.plain (.name rfl (.field rfl rfl .unselected)))
  obtain ⟨c, hread, hc⟩ : ∃ c, onText .start "b += x.y;".toList ⟨1, 10⟩ = .ok c ∧
      c.Shows (Token.compoundAssign .plusAssign [ofName ⟨"b"⟩] ts) d := exists_shows (by cbv)
  obtain ⟨c', hread', hc'⟩ : ∃ c', onText .start "b := b + (x.y);".toList ⟨1, 16⟩ = .ok c' ∧
      c'.Shows (expanded .add [ofName ⟨"b"⟩] ts) d := exists_shows (by cbv)
  refine ⟨s, ts, c, c', d, .unselected, hts, hread, hread', hc, hc', ?_, ?_⟩
  · refine refused_of_recodes (erasing.statement_cursor s false c) ?_
    rw [hc]
    exact .of_mapError (by cbv)
  · refine refused_of_recodes (erasing.statement_cursor s false c') ?_
    rw [hc']
    exact .of_mapError (by cbv)

end MiniPascal
