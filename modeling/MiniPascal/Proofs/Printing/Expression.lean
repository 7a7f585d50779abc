import MiniPascal.Proofs.Printing.Syntax
import MiniPascal.Proofs.Recoding.Expression

/-! What is proved of the tokens of a chain of operators is that reading them leads to `operations`
with the chain in hand (`Continues`). -/

namespace MiniPascal

open Grammar Token Recoding Cursor Read

/-- A token with which no expression of a level goes on, nor a designator. -/
structure Token.Kind.Closes (height : Nat) (k : Kind) : Prop where
  operator : ∀ p : Precedence, p.height ≤ height → p.operator? k = none
  openSquare : k ≠ .symbol .openSquare
  openParen : k ≠ .symbol .openParen
  dot : k ≠ .symbol .dot

theorem Token.Kind.Closes.mono {m n : Nat} {k : Kind} (h : k.Closes n) (hle : m ≤ n) :
    k.Closes m :=
  { h with operator := fun p hp => h.operator p (Nat.le_trans hp hle) }

/-- Tokens that end every expression in front of them. -/
def Token.Kind.isCloser : Kind → Bool
  | .symbol .closeParen | .symbol .closeSquare | .symbol .comma | .symbol .semicolon
  | .symbol .assign | .keyword .kwThen | .keyword .kwElse | .keyword .kwDo | .keyword .kwTo
  | .keyword .kwUntil | .keyword .kwEnd | .endOfFile => true
  | _ => false

theorem closes_of_isCloser {n : Nat} {k : Kind} (h : k.isCloser = true) : k.Closes n := by
  have hoperator : ∀ p : Precedence, p.operator? k = none := by
    intro p
    unfold Kind.isCloser at h
    split at h <;> first | (cases p <;> rfl) | cases h
  refine ⟨fun p _ => hoperator p, ?_, ?_, ?_⟩
  all_goals
    rintro rfl
    cases h

/-- An operator ends what is to be its operand. -/
theorem BinOp.token_closes (op : BinOp) : op.token.kind.Closes (op.precedence.height - 1) := by
  have hoperator : ∀ p : Precedence, p.height ≤ op.precedence.height - 1 →
      p.operator? op.token.kind = none := by
    intro p hp
    apply operator?_token_ne
    rintro rfl
    have hpos : 0 < op.precedence.height := by cases op <;> decide
    omega
  refine ⟨hoperator, ?_, ?_, ?_⟩
  all_goals cases op <;> decide

variable {s : Scopes} {p q : Precedence} {c d : Cursor} {e : Expr}

/-! ### Levels -/

/-- The tokens up to the second cursor lead to the operators behind a first operand. -/
def Continues (s : Scopes) (p : Precedence) (c : Cursor) (e : Expr) (d : Cursor) : Prop :=
  ∀ e' d', Succeeds (operations s p e d) (·.Is e' d') → Succeeds (operation s p c) (·.Is e' d')

theorem operations_none (h : p.operator? d.current.kind = none) :
    Succeeds (operations s p e d) (·.Is e d) := by
  unfold operations
  rw [accept_none h]
  exact .pure ⟨_, rfl⟩

theorem Continues.operation (h : Continues s p c e d) (hd : d.current.kind.Closes p.height) :
    Succeeds (operation s p c) (·.Is e d) :=
  h e d (operations_none (hd.operator p (Nat.le_refl _)))

theorem continues_of_operand (h : Succeeds (operand s p c) (·.Is e d)) : Continues s p c e d := by
  intro e' d' he
  unfold Grammar.operation
  apply Succeeds.bind h
  rintro _ ⟨h₁, rfl⟩
  apply Succeeds.bind he
  rintro _ ⟨h₂, rfl⟩
  exact .pure ⟨_, rfl⟩

/-- An operator and its right operand prolong a chain of operands. -/
theorem Continues.operator {t : Token} {op : BinOp} {a b : Expr} (h : Continues s p c a (d.push t))
    (hop : p.operator? t.kind = some op) {g : Cursor} (hright : Succeeds (operand s p d) (·.Is b g))
    (hcheck : Expr.checkBinary op a b t.position = .ok e) : Continues s p c e g := by
  intro e' d' hmore
  apply h
  unfold operations
  apply Succeeds.bind (accept_push (by cases p <;> rfl) hop)
  rintro _ ⟨_, rfl, h₁, rfl⟩
  apply Succeeds.bind hright
  rintro _ ⟨h₂, rfl⟩
  apply Succeeds.check hcheck
  apply Succeeds.bind hmore
  rintro _ ⟨h₃, rfl⟩
  exact .pure ⟨_, rfl⟩

/-! ### Levels of operators -/

section

variable {P : Read (Taken c Expr) → Prop} {f : Located Fault}

/-- What holds of the reading of an operand without operators, and is kept by the rule of each
level, holds of the reading of an operand of any level. -/
theorem operand_of_levels (hunary : P (unary s c))
    (hlevel : ∀ q, P (operand s q c) → P (operation s q c)) (p : Precedence) :
    P (operand s p c) := by
  have hmultiplicative : P (operand s .multiplicative c) := by
    unfold operand
    exact hunary
  have hadditive : P (operand s .additive c) := by
    unfold operand
    exact hlevel _ hmultiplicative
  cases p with
  | multiplicative => exact hmultiplicative
  | additive => exact hadditive
  | relational =>
    unfold operand
    exact hlevel _ hadditive

/-- What holds of the reading at one level, and is kept by the rules of the others, holds of the
reading of the expression. -/
theorem expression_of_operation (h : P (operation s p c))
    (hlevel : ∀ q, P (operand s q c) → P (operation s q c)) : P (expression s c) := by
  unfold expression
  cases p with
  | relational => exact h
  | additive =>
    apply hlevel
    unfold operand
    exact h
  | multiplicative =>
    apply hlevel
    unfold operand
    apply hlevel
    unfold operand
    exact h

theorem operation_error (h : operand s p c = .error f) : operation s p c = .error f := by
  unfold operation
  rw [h]
  rfl

/-- What goes wrong in an operand without operators goes wrong in an operand of any level. -/
theorem operand_error (h : unary s c = .error f) (p : Precedence) : operand s p c = .error f :=
  operand_of_levels (P := (· = .error f)) h (fun _ => operation_error) p

/-- What goes wrong at the level of the first operator goes wrong in the expression. -/
theorem expression_error (h : operation s p c = .error f) : expression s c = .error f :=
  expression_of_operation (P := (· = .error f)) h fun _ => operation_error

end

/-- An operand of a level may be of the next tighter one. -/
theorem operand_of_operation (hq : q.height + 1 = p.height) (h : Continues s q c e d)
    (hd : d.current.kind.Closes (p.height - 1)) : Succeeds (operand s p c) (·.Is e d) := by
  have hclose : d.current.kind.Closes q.height := by
    rw [← hq] at hd
    exact hd
  have hread := h.operation hclose
  unfold operand
  cases p with
  | relational =>
    cases q with
    | additive => exact hread
    | relational | multiplicative => cases hq
  | additive =>
    cases q with
    | multiplicative => exact hread
    | relational | additive => cases hq
  | multiplicative => cases q <;> cases hq

/-- An operand of a level may be of any tighter one. -/
theorem Continues.operand (h : Continues s q c e d) (hlt : q.height < p.height)
    (hd : d.current.kind.Closes (p.height - 1)) : Succeeds (operand s p c) (·.Is e d) := by
  by_cases hnext : q.height + 1 = p.height
  · exact operand_of_operation hnext h hd
  · -- the only level that is not next to another
    obtain ⟨rfl, rfl⟩ : q = .multiplicative ∧ p = .relational := by
      cases p <;> cases q <;> simp_all [Precedence.height]
    have hadditive : Succeeds (Grammar.operand s .additive c) (·.Is e d) :=
      operand_of_operation rfl h (hd.mono (by decide))
    exact operand_of_operation rfl (continues_of_operand hadditive) hd

theorem operand_of_unary (h : Succeeds (unary s c) (·.Is e d))
    (hd : d.current.kind.Closes (p.height - 1)) : Succeeds (operand s p c) (·.Is e d) := by
  have htight : Succeeds (operand s .multiplicative c) (·.Is e d) := by
    unfold operand
    exact h
  by_cases hp : p = .multiplicative
  · rw [hp]
    exact htight
  · have hlt : Precedence.height .multiplicative < p.height := by
      cases p <;> first | decide | exact absurd rfl hp
    exact (continues_of_operand htight).operand hlt hd

/-! ### Designators and arguments -/

theorem selectors_none (hsquare : d.current.kind ≠ .symbol .openSquare)
    (hdot : d.current.kind ≠ .symbol .dot) : Succeeds (selectors s e d) (·.Is e d) := by
  unfold selectors
  rw [acceptSymbol_none hsquare, acceptSymbol_none hdot]
  simp only [bind, Except.bind]
  split
  · exact .pure ⟨_, rfl⟩
  · exact .pure ⟨_, rfl⟩

theorem forM_ok {α : Type} {f : α → Read Unit} {xs : List α} (h : ∀ x ∈ xs, f x = .ok ()) :
    xs.forM f = .ok () := by
  induction xs with
  | nil => rfl
  | cons x xs ih =>
    obtain ⟨hx, hxs⟩ := List.forall_mem_cons.1 h
    have hstep : (x :: xs).forM f = (f x >>= fun _ => xs.forM f) := rfl
    rw [hstep, hx]
    exact ih hxs

theorem checkArguments_passable {name : Located Name} {args : List Expr} {params : List Ty}
    (h : Passable args params) : checkArguments name params args = .ok () := by
  rw [checkArguments, if_pos h.length_eq]
  apply forM_ok
  rintro ⟨e, t⟩ ha
  have hassign : Typing.checkAssignable t e "as argument" = .ok () :=
    if_pos ((List.forall₂_iff_zip.1 h).2 ha)
  exact congrArg Read.checked hassign

/-- Erasing positions keeps arguments passable. -/
theorem Passable.erasing {args : List Expr} {params : List Ty} (h : Passable args params) :
    Passable (args.map erasing.expr) (params.map erasing.ty) := by
  apply List.rel_map _ h
  intro e t ht
  rwa [type_expr, assignable_ty]

/-! ### Expressions -/

theorem behind_group {ts : List Token} : d.behind (group ts) =
    ((d.push (ofSymbol .closeParen)).behind ts).push (ofSymbol .openParen) := by
  rw [group, List.cons_append, behind_cons, behind_append]
  rfl

/-- What is read in parentheses is an expression and the closing one. -/
theorem unary_group_eq (s : Scopes) (d : Cursor) (ts : List Token) :
    ∃ h, unary s (d.behind (group ts)) = do
      let ⟨e, c₂, h₂⟩ ← expression s ((d.push (ofSymbol .closeParen)).behind ts)
      let ⟨_, c₃, h₃⟩ ← c₂.symbol .closeParen
      return Taken.mk e c₃ h₃ |>.after h₂ |>.after h := by
  obtain ⟨_, hx, hlt, rfl⟩ := symbol_push (c := (d.push (ofSymbol .closeParen)).behind ts)
    (t := ofSymbol .openParen) rfl
  rw [behind_group]
  refine ⟨hlt, ?_⟩
  unfold unary
  rw [accept_none rfl]
  show primary s _ = _
  unfold primary
  show (symbol _ _ >>= _) = _
  rw [hx]
  rfl

theorem unary_group {ts : List Token}
    (h : Succeeds (expression s ((d.push (ofSymbol .closeParen)).behind ts))
      (·.Is e (d.push (ofSymbol .closeParen)))) :
    Succeeds (unary s (d.behind (group ts))) (·.Is e d) := by
  obtain ⟨hlt, heq⟩ := unary_group_eq s d ts
  obtain ⟨_, hx, hlt', rfl⟩ := h
  rw [heq, hx]
  apply Succeeds.bind (symbol_push rfl)
  rintro _ ⟨h₃, rfl⟩
  exact .pure ⟨_, rfl⟩

/-- How the tokens of an expression are read where the scopes are visible and all positions are
erased: by `unary` if no binary operator is outermost, else by the rule of the operator's level. A
designator is read by `selectors` behind its variable. -/
structure Expr.Reads (s : Scopes) (bare : Name → Bool) (e : Expr) : Prop where
  unary : e.height = 0 → ∀ d : Cursor, d.current.kind.Closes 0 →
    Succeeds (Grammar.unary (erasing.scopes s) (d.behind (e.tokens bare)))
      (·.Is (erasing.expr e) d)
  operation : ∀ p : Precedence, e.height = p.height → ∀ d : Cursor,
    d.current.kind.Closes (p.height - 1) →
    Continues (erasing.scopes s) p (d.behind (e.tokens bare)) (erasing.expr e) d
  selectors : e.isDesignator = true → ∀ (e' : Expr) (d d' : Cursor),
    Succeeds (Grammar.selectors (erasing.scopes s) (erasing.expr e) d) (·.Is e' d') →
    Succeeds (Grammar.selectors (erasing.scopes s) (erasing.expr e.root) (d.behind (e.path bare)))
      (·.Is e' d')

namespace Expr

theorem height_cases (e : Expr) : e.height = 0 ∨ ∃ q : Precedence, e.height = q.height := by
  cases e with
  | binary p t op l r => exact .inr ⟨op.precedence, rfl⟩
  | _ => exact .inl rfl

theorem height_le (e : Expr) : e.height ≤ 3 := by
  cases e with
  | binary p t op l r => exact op.precedence.height_le
  | _ => exact Nat.zero_le 3

namespace Reads

variable {bare : Name → Bool} (h : e.Reads s bare)
include h

/-- An expression can stand where an operand is read that it binds tighter than. -/
theorem operand (hlt : e.height < p.height) (hd : d.current.kind.Closes (p.height - 1)) :
    Succeeds (Grammar.operand (erasing.scopes s) p (d.behind (e.tokens bare)))
      (·.Is (erasing.expr e) d) := by
  rcases e.height_cases with hzero | ⟨q, hq⟩
  · exact operand_of_unary (h.unary hzero d (hd.mono (Nat.zero_le _))) hd
  · rw [hq] at hlt
    have hclose : d.current.kind.Closes (q.height - 1) := hd.mono (by omega)
    exact (h.operation q hq d hclose).operand hlt hd

theorem continues (hle : e.height ≤ p.height) (hd : d.current.kind.Closes (p.height - 1)) :
    Continues (erasing.scopes s) p (d.behind (e.tokens bare)) (erasing.expr e) d := by
  rcases Nat.eq_or_lt_of_le hle with heq | hlt
  · exact h.operation p heq d hd
  · exact continues_of_operand (h.operand hlt hd)

/-- Every expression can stand where one is expected. -/
theorem expression (hd : d.current.kind.Closes 3) :
    Succeeds (Grammar.expression (erasing.scopes s) (d.behind (e.tokens bare)))
      (·.Is (erasing.expr e) d) := by
  unfold Grammar.expression
  have hlow : d.current.kind.Closes (Precedence.height .relational - 1) := hd.mono (by decide)
  exact (h.continues (p := .relational) e.height_le hlow).operation hd

/-- In parentheses every expression can stand where an operand of a unary operator is read. -/
theorem group : Succeeds
    (Grammar.unary (erasing.scopes s) (d.behind (Token.group (e.tokens bare))))
    (·.Is (erasing.expr e) d) := by
  have hclose : (d.push (ofSymbol .closeParen)).current.kind.Closes 3 :=
    closes_of_isCloser rfl
  exact unary_group (h.expression hclose)

/-- What an operand of a unary operator is written as. -/
theorem groupIf_unary (hd : d.current.kind.Closes 0) :
    Succeeds (Grammar.unary (erasing.scopes s) (d.behind (groupIf (0 < e.height) (e.tokens bare))))
      (·.Is (erasing.expr e) d) := by
  by_cases hheight : 0 < e.height
  · rw [groupIf, if_pos (decide_eq_true hheight)]
    exact h.group
  · rw [groupIf, if_neg (by simpa using hheight)]
    exact h.unary (by omega) d hd

/-- What a right operand of a level is written as. -/
theorem groupIf_operand (hd : d.current.kind.Closes (p.height - 1)) :
    Succeeds
      (Grammar.operand (erasing.scopes s) p
        (d.behind (groupIf (p.height ≤ e.height) (e.tokens bare))))
      (·.Is (erasing.expr e) d) := by
  by_cases hheight : p.height ≤ e.height
  · rw [groupIf, if_pos (decide_eq_true hheight)]
    exact operand_of_unary h.group hd
  · rw [groupIf, if_neg (by simpa using hheight)]
    exact h.operand (by omega) hd

/-- What a left operand of a level is written as. -/
theorem groupIf_continues (hd : d.current.kind.Closes (p.height - 1)) :
    Continues (erasing.scopes s) p (d.behind (groupIf (p.height < e.height) (e.tokens bare)))
      (erasing.expr e) d := by
  by_cases hheight : p.height < e.height
  · rw [groupIf, if_pos (decide_eq_true hheight)]
    exact continues_of_operand (operand_of_unary h.group hd)
  · rw [groupIf, if_neg (by simpa using hheight)]
    exact h.continues (by omega) hd

end Reads

variable {bare : Name → Bool}

theorem height_pos (p : Precedence) : 0 < p.height := by cases p <;> decide

/-- Where no binary operator is outermost and nothing is selected, `unary` is all there is. -/
theorem reads_of_unary (hheight : e.height = 0) (hdesignator : e.isDesignator = false)
    (h : ∀ d : Cursor, d.current.kind.Closes 0 →
      Succeeds (Grammar.unary (erasing.scopes s) (d.behind (e.tokens bare)))
        (·.Is (erasing.expr e) d)) : e.Reads s bare := by
  refine ⟨fun _ => h, ?_, ?_⟩
  · intro p hp
    have hpos := height_pos p
    omega
  · intro hd
    rw [hdesignator] at hd
    cases hd

/-- A primary expression is no unary operation. -/
theorem unary_of_primary {d' : Cursor} (hkind : unaryOperator? c.current.kind = none)
    (h : Succeeds (primary s c) (·.Is e d')) : Succeeds (Grammar.unary s c) (·.Is e d') := by
  unfold Grammar.unary
  rw [accept_none hkind]
  exact h

theorem reads_int {p : Position} {v : UInt64} (hv : v.toNat ≤ literalLimit) :
    (int p v).Reads s bare := by
  apply reads_of_unary rfl rfl
  intro d _
  have hliteral : Grammar.literal (ofNat v.toNat) = .ok (erasing.expr (int p v)) := by
    simp only [Grammar.literal, ofNat, if_pos hv, UInt64.ofNat_toNat, Recoding.expr]
    rfl
  rw [tokens]
  apply unary_of_primary rfl
  unfold primary
  show Succeeds (Grammar.number _) _
  unfold Grammar.number
  apply Succeeds.bind (expect_push (ofNat_printable v.toNat_lt).endOfFile)
  rintro _ ⟨h₁, rfl⟩
  simp only [hliteral]
  exact .pure ⟨_, rfl⟩

theorem reads_bool {p : Position} {b : Bool} : (bool p b).Reads s bare := by
  apply reads_of_unary rfl rfl
  intro d _
  rw [tokens]
  cases b with
  | true =>
    apply unary_of_primary rfl
    unfold primary
    apply Succeeds.bind (keyword_push (t := ofKeyword .kwTrue) rfl)
    rintro _ ⟨h₁, rfl⟩
    exact .pure ⟨_, rfl⟩
  | false =>
    apply unary_of_primary rfl
    unfold primary
    apply Succeeds.bind (keyword_push (t := ofKeyword .kwFalse) rfl)
    rintro _ ⟨h₁, rfl⟩
    exact .pure ⟨_, rfl⟩

theorem reads_unary {p : Position} {op : UnaryOp} (he : e.Reads s bare)
    (ht : op.accepts e.type = true) : (unary p e.type op e).Reads s bare := by
  apply reads_of_unary rfl rfl
  intro d hd
  have hcheck : checkUnary op (erasing.expr e) .start =
      .ok (erasing.expr (unary p e.type op e)) := by
    have hrecoded := erasing.checkUnary_expr op e p
    have hplain : checkUnary op e p = .ok (unary p e.type op e) := by
      rw [checkUnary, Typing.unary, if_pos ht]
      rfl
    rwa [hplain] at hrecoded
  rw [tokens]
  unfold Grammar.unary
  apply Succeeds.bind (accept_push rfl op.unaryOperator?_token)
  rintro _ ⟨_, rfl, h₁, rfl⟩
  apply Succeeds.bind (he.groupIf_unary hd)
  rintro _ ⟨h₂, rfl⟩
  have hposition : op.token.position = .start := op.token_printable.position
  rw [hposition]
  apply Succeeds.check hcheck
  exact .pure ⟨_, rfl⟩

theorem reads_binary {p : Position} {op : BinOp} {t : Scalar} {l r : Expr}
    (hl : l.Reads s bare) (hr : r.Reads s bare) (ht : op.result? l.type r.type = some t) :
    (binary p (.scalar t) op l r).Reads s bare := by
  have hcheck : checkBinary op (erasing.expr l) (erasing.expr r) .start =
      .ok (erasing.expr (binary p (.scalar t) op l r)) := by
    have hrecoded := erasing.checkBinary_expr op l r p
    have hplain : checkBinary op l r p = .ok (binary p (.scalar t) op l r) := by
      rw [checkBinary, Typing.binary, ht]
      rfl
    rwa [hplain] at hrecoded
  refine ⟨?_, ?_, fun h => absurd h Bool.false_ne_true⟩
  · intro hheight
    have hpos := height_pos op.precedence
    have hop : op.precedence.height = 0 := hheight
    omega
  · intro q hq d hd e' d' hmore
    obtain rfl : op.precedence = q := by
      have hop : op.precedence.height = q.height := hq
      revert hop
      cases op.precedence <;> cases q <;> first
        | exact fun _ => rfl
        | exact fun h => absurd h (by decide)
    rw [tokens, behind_append, behind_cons]
    have hposition : op.token.position = .start := op.token_printable.position
    rw [← hposition] at hcheck
    -- the left operand is read first, and then the rest of the chain goes on with the operator
    exact (hl.groupIf_continues op.token_closes).operator op.operator?_token (hr.groupIf_operand hd)
      hcheck e' d' hmore

/-! ### Designators and calls -/

/-- What selects a part of a variable does not start with a parenthesis. -/
theorem path_head (hd : d.current.kind ≠ .symbol .openParen) :
    (d.behind (e.path bare)).current.kind ≠ .symbol .openParen := by
  induction e using root.induct generalizing d with
  | case1 p t a i ih =>
    rw [path, List.append_assoc, behind_append]
    exact ih (kind_symbol_ne (by decide))
  | case2 p t r n slot ih =>
    rw [path, behind_append]
    exact ih (kind_symbol_ne (by decide))
  | case3 e hindex hfield =>
    cases e with
    | index p t a i => exact absurd rfl (hindex p t a i)
    | field p t r n slot => exact absurd rfl (hfield p t r n slot)
    | _ => exact hd

/-- What a name stands for where all positions are erased. -/
theorem lookup_recoded (s : Scopes) (n : Name) : (erasing.scopes s).lookup ⟨.start, n⟩ =
    erasing.checked erasing.resolved (s.lookup ⟨.start, n⟩) := by
  have hrecoded := erasing.lookup_scopes s ⟨.start, n⟩
  rw [located, name_erasing] at hrecoded
  exact hrecoded

theorem lookup_erasing {q : Position} {n : Name} {t u : Ty} {st : Storage}
    (hs : s.lookup ⟨.start, n⟩ = .ok ⟨.var q u, st⟩) (ht : erasing.ty u = erasing.ty t) :
    (erasing.scopes s).lookup ⟨.start, n⟩ = .ok ⟨.var .start (erasing.ty t), st⟩ := by
  rw [lookup_recoded, hs, ← ht]
  rfl

/-- Where `selectors` is all there is to a designator, `unary` reads it. -/
theorem reads_of_selectors (he : e.Writable s) (hdesignator : e.isDesignator = true)
    (h : ∀ (e' : Expr) (d d' : Cursor),
      Succeeds (Grammar.selectors (erasing.scopes s) (erasing.expr e) d) (·.Is e' d') →
      Succeeds (Grammar.selectors (erasing.scopes s) (erasing.expr e.root)
        (d.behind (e.path bare))) (·.Is e' d')) : e.Reads s bare := by
  have hheight : e.height = 0 := by
    cases e <;> first | rfl | cases hdesignator
  refine ⟨?_, ?_, fun _ => h⟩
  · intro _ d hd
    obtain ⟨p, q, t, u, n, st, hroot, hn, hs, ht⟩ := he.root hdesignator
    have hread := h (erasing.expr e) d d (selectors_none hd.openSquare hd.dot)
    rw [he.tokens_eq hdesignator, hroot, tokens, List.singleton_append, behind_cons]
    rw [hroot, Recoding.expr, name_erasing] at hread
    apply unary_of_primary rfl
    unfold primary
    apply Succeeds.bind (identifier_push rfl)
    rintro _ ⟨h₁, rfl⟩
    have hnamed : Succeeds (named (erasing.scopes s) ⟨.start, n⟩ (d.behind (e.path bare)))
        (·.Is (erasing.expr e) d) := by
      unfold named
      rw [sees_of_ne (path_head hd.openParen), if_neg Bool.false_ne_true]
      apply Succeeds.check (lookup_erasing hs ht)
      exact hread
    apply Succeeds.bind hnamed
    rintro _ ⟨h₂, rfl⟩
    exact .pure ⟨_, rfl⟩
  · intro p hp
    have hpos := height_pos p
    omega

theorem reads_var {p : Position} {t : Ty} {n : Name} {st : Storage}
    (he : (var p t n st).Writable s) : (var p t n st).Reads s bare := by
  apply reads_of_selectors he rfl
  intro e' d d' hmore
  exact hmore

theorem reads_index {p : Position} {low high : Expr} {t : Ty} {a i : Expr}
    (he : (index p t a i).Writable s) (ha : a.Reads s bare) (hd : a.isDesignator = true)
    (hi : i.Reads s bare) (ht : a.type = .array low high t) (hit : i.type = .integer) :
    (index p t a i).Reads s bare := by
  -- the check builds the same element whether or not positions are kept
  have hcheck : checkIndex (erasing.expr a) (erasing.expr i) .start =
      .ok (erasing.expr (index p t a i)) := by
    have hrecoded := erasing.checkIndex_expr a i p
    have hplain : checkIndex a i p = .ok (index p t a i) := by
      simp only [checkIndex, Typing.element, ht, hit]
      rfl
    rwa [hplain] at hrecoded
  apply reads_of_selectors he rfl
  intro e' d d' hmore
  rw [path, List.append_assoc, behind_append, Expr.root]
  apply ha.selectors hd
  have hclose : (d.push (ofSymbol .closeSquare)).current.kind.Closes 3 := closes_of_isCloser rfl
  have hindices : Succeeds
      (indices (erasing.scopes s) (erasing.expr a) .start
        ((d.push (ofSymbol .closeSquare)).behind (i.tokens bare)))
      (·.Is (erasing.expr (index p t a i)) (d.push (ofSymbol .closeSquare))) := by
    unfold indices
    apply Succeeds.bind (hi.expression hclose)
    rintro _ ⟨h₁, rfl⟩
    apply Succeeds.check hcheck
    have hcomma : (d.push (ofSymbol .closeSquare)).current.kind ≠ .symbol .comma :=
      kind_symbol_ne (by decide)
    rw [acceptSymbol_none hcomma]
    exact .pure ⟨_, rfl⟩
  rw [List.cons_append, behind_cons, behind_append]
  unfold Grammar.selectors
  apply Succeeds.bind (acceptSymbol_push rfl)
  rintro _ ⟨_, rfl, h₁, rfl⟩
  apply Succeeds.bind hindices
  rintro _ ⟨h₂, rfl⟩
  apply Succeeds.bind (symbol_push rfl)
  rintro _ ⟨h₃, rfl⟩
  apply Succeeds.bind hmore
  rintro _ ⟨h₄, rfl⟩
  exact .pure ⟨_, rfl⟩

theorem reads_field {p : Position} {t : Ty} {r : Expr} {n : Name} {slot : Nat}
    {fields : List (Name × Ty)} (he : (field p t r n slot).Writable s) (hr : r.Reads s bare)
    (hd : r.isDesignator = true) (ht : r.type = .record fields)
    (hf : Ty.findField n fields = some (slot, t)) : (field p t r n slot).Reads s bare := by
  -- the check builds the same field whether or not positions are kept
  have hcheck : checkField (erasing.expr r) n .start =
      .ok (erasing.expr (field p t r n slot)) := by
    have hrecoded := erasing.checkField_expr r n p
    have hplain : checkField r n p = .ok (field p t r n slot) := by
      rw [checkField, Typing.field, ht, Ty.isRecord, if_pos rfl, Ty.field?, hf]
      rfl
    rwa [hplain, name_erasing] at hrecoded
  have hrecord : (erasing.expr r).type.isRecord = true := by
    rw [type_expr, isRecord_ty, ht]
    rfl
  apply reads_of_selectors he rfl
  intro e' d d' hmore
  rw [path, behind_append, Expr.root]
  apply hr.selectors hd
  rw [behind_cons, behind_cons, behind_nil]
  have hsquare : ((d.push (ofName n)).push (ofSymbol .dot)).current.kind ≠
      .symbol .openSquare := kind_symbol_ne (by decide)
  unfold Grammar.selectors
  rw [acceptSymbol_none hsquare]
  simp only [hrecord, if_true]
  apply Succeeds.bind (acceptSymbol_push rfl)
  rintro _ ⟨_, rfl, h₁, rfl⟩
  apply Succeeds.bind (identifier_push rfl)
  rintro _ ⟨h₂, rfl⟩
  apply Succeeds.check hcheck
  apply Succeeds.bind hmore
  rintro _ ⟨h₃, rfl⟩
  exact .pure ⟨_, rfl⟩

/-- Expressions with commas between them. -/
theorem reads_expressions {es : List Expr} (he : e.Reads s bare) (hes : ∀ e ∈ es, e.Reads s bare)
    (hd : d.current.kind.Closes 3) (hcomma : d.current.kind ≠ .symbol .comma) :
    Succeeds
      (expressions (erasing.scopes s) (d.behind (e.tokens bare ++ moreTokens bare es)))
      (·.Is ((e :: es).map erasing.expr) d) := by
  induction es generalizing e with
  | nil =>
    rw [moreTokens, List.append_nil]
    unfold expressions
    apply Succeeds.bind (he.expression hd)
    rintro _ ⟨h₁, rfl⟩
    apply Succeeds.step (acceptSymbol_none hcomma)
    exact .pure ⟨_, rfl⟩
  | cons u us ih =>
    obtain ⟨hu, hus⟩ := List.forall_mem_cons.1 hes
    rw [moreTokens, List.cons_append, behind_append, behind_cons]
    unfold expressions
    apply Succeeds.bind (he.expression (closes_of_isCloser rfl))
    rintro _ ⟨h₁, rfl⟩
    apply Succeeds.bind (acceptSymbol_push rfl)
    rintro _ ⟨_, rfl, h₂, rfl⟩
    apply Succeeds.bind (ih hu hus)
    rintro _ ⟨h₃, rfl⟩
    exact .pure ⟨_, rfl⟩

theorem callTokens_cases (bare : Name → Bool) (n : Name) (args : List Expr) :
    (bare n = true ∧ args = [] ∧ callTokens bare n args = []) ∨
      ∃ ts, callTokens bare n args = group ts := by
  cases args with
  | nil =>
    rw [callTokens]
    cases bare n with
    | true => exact .inl ⟨rfl, rfl, rfl⟩
    | false => exact .inr ⟨[], rfl⟩
  | cons e es =>
    rw [callTokens]
    exact .inr ⟨_, rfl⟩

/-- The arguments of a call, in parentheses or left out with these. -/
theorem reads_arguments {n : Name} {args : List Expr} {params : List Ty}
    (hwritable : ∀ e ∈ args, e.Writable s) (hargs : ∀ e ∈ args, e.Reads s bare)
    (hp : Passable args params) (hd : d.current.kind ≠ .symbol .openParen) :
    Succeeds
      (arguments (erasing.scopes s) ⟨.start, n⟩ (params.map erasing.ty)
        (d.behind (callTokens bare n args)))
      (·.Is (args.map erasing.expr) d) := by
  have hcheck : checkArguments ⟨.start, n⟩ (params.map erasing.ty) (args.map erasing.expr) =
      .ok () := checkArguments_passable hp.erasing
  have hclose : (d.push (ofSymbol .closeParen)).current.kind.Closes 3 := closes_of_isCloser rfl
  have hcomma : (d.push (ofSymbol .closeParen)).current.kind ≠ .symbol .comma :=
      kind_symbol_ne (by decide)
  unfold arguments
  cases args with
  | nil =>
    rw [callTokens]
    cases bare n with
    | true =>
      -- the name alone stands for the call
      rw [if_pos rfl, behind_nil, acceptSymbol_none hd]
      apply Succeeds.step hcheck
      exact .pure ⟨_, rfl⟩
    | false =>
      rw [if_neg Bool.false_ne_true, behind_group]
      apply Succeeds.bind (acceptSymbol_push rfl)
      rintro _ ⟨_, rfl, h₁, rfl⟩
      simp only [behind_nil, sees_push (c := d) (t := ofSymbol .closeParen) rfl, if_true]
      apply Succeeds.bind (symbol_push rfl)
      rintro _ ⟨h₂, rfl⟩
      apply Succeeds.step hcheck
      exact .pure ⟨_, rfl⟩
  | cons e es =>
    obtain ⟨he, hes⟩ := List.forall_mem_cons.1 hargs
    obtain ⟨hfirst, -⟩ := List.forall_mem_cons.1 hwritable
    -- no argument starts with the parenthesis that ends the list
    have hopen : ((d.push (ofSymbol .closeParen)).behind
        (e.tokens bare ++ moreTokens bare es)).sees .closeParen = false := by
      obtain ⟨t, ts, htokens, -, hne⟩ := hfirst.head bare
      apply sees_of_ne
      rw [htokens]
      exact hne
    rw [callTokens, behind_group]
    apply Succeeds.bind (acceptSymbol_push rfl)
    rintro _ ⟨_, rfl, h₁, rfl⟩
    simp only [hopen, Bool.false_eq_true, if_false]
    apply Succeeds.bind (reads_expressions he hes hclose hcomma)
    rintro _ ⟨h₂, rfl⟩
    apply Succeeds.bind (symbol_push rfl)
    rintro _ ⟨h₃, rfl⟩
    apply Succeeds.step hcheck
    exact .pure ⟨_, rfl⟩

/-- The name of a routine, with all positions erased. -/
theorem lookupRoutine_erasing {n : Name} {r : Routine}
    (hs : s.lookupRoutine ⟨.start, n⟩ = .ok r) :
    (erasing.scopes s).lookupRoutine ⟨.start, n⟩ = .ok (erasing.routine r) := by
  have hrecoded := erasing.lookupRoutine_scopes s ⟨.start, n⟩
  rw [hs, located, name_erasing] at hrecoded
  exact hrecoded

/-- A name stands for a routine. -/
def IsRoutine (s : Scopes) (n : Name) : Prop :=
  ∃ r st, s.lookup ⟨.start, n⟩ = .ok ⟨.routine r, st⟩

/-- What follows the name of a function, which is in scope with this result and these
parameters. -/
theorem reads_callOf {p : Position} {t : Ty} {n : Name} {args : List Expr} {params : List Ty}
    {r : Routine} (hs : s.lookupRoutine ⟨.start, n⟩ = .ok r)
    (hr : r.returns.map erasing.ty = some (erasing.ty t))
    (ht : r.paramTypes.map erasing.ty = params.map erasing.ty)
    (hwritable : ∀ e ∈ args, e.Writable s) (hargs : ∀ e ∈ args, e.Reads s bare)
    (hp : Passable args params) (hd : d.current.kind ≠ .symbol .openParen) :
    Succeeds (callOf (erasing.scopes s) ⟨.start, n⟩ (d.behind (callTokens bare n args)))
      (·.Is (erasing.expr (call p t n r.symbol args params)) d) := by
  have hreturns : (erasing.routine r).returns = some (erasing.ty t) := by
    rw [returns_routine, hr]
  have hparams : (erasing.routine r).paramTypes = params.map erasing.ty := by
    rw [paramTypes_routine, ht]
  have hexpr : erasing.expr (call p t n r.symbol args params) =
      .call .start (erasing.ty t) n r.symbol (args.map erasing.expr) (params.map erasing.ty) := by
    rw [Recoding.expr, exprs_eq_map, tys_eq_map, name_erasing]
    rfl
  unfold callOf
  apply Succeeds.check (lookupRoutine_erasing hs)
  simp only [hreturns, hparams, symbol_routine]
  apply Succeeds.bind (reads_arguments hwritable hargs hp hd)
  rintro _ ⟨h₁, rfl⟩
  rw [hexpr]
  exact .pure ⟨_, rfl⟩

theorem reads_call {p : Position} {t : Ty} {n : Name} {args : List Expr} {params : List Ty}
    {r : Routine} (hbare : bare n = true → IsRoutine s n)
    (hs : s.lookupRoutine ⟨.start, n⟩ = .ok r)
    (hr : r.returns.map erasing.ty = some (erasing.ty t))
    (ht : r.paramTypes.map erasing.ty = params.map erasing.ty)
    (hwritable : ∀ e ∈ args, e.Writable s) (hargs : ∀ e ∈ args, e.Reads s bare)
    (hp : Passable args params) : (call p t n r.symbol args params).Reads s bare := by
  apply reads_of_unary rfl rfl
  intro d hd
  have hcall := reads_callOf (p := p) hs hr ht hwritable hargs hp hd.openParen
  have hnamed : Succeeds
      (named (erasing.scopes s) ⟨.start, n⟩ (d.behind (callTokens bare n args)))
      (·.Is (erasing.expr (call p t n r.symbol args params)) d) := by
    unfold named
    rcases callTokens_cases bare n args with ⟨hn, rfl, htokens⟩ | ⟨ts, htokens⟩
    · -- the name alone is a call because a routine has it
      obtain ⟨q, st, hlookup⟩ := hbare hn
      have hlookup' : (erasing.scopes s).lookup ⟨.start, n⟩ =
          .ok ⟨.routine (erasing.routine q), st⟩ := by
        rw [lookup_recoded, hlookup]
        rfl
      have hsees : (d.behind (callTokens bare n [])).sees .openParen = false := by
        rw [htokens]
        exact sees_of_ne hd.openParen
      rw [hsees, if_neg Bool.false_ne_true]
      apply Succeeds.check hlookup'
      exact hcall
    · have hsees : (d.behind (callTokens bare n args)).sees .openParen = true := by
        rw [htokens, behind_group]
        exact sees_push rfl
      rw [hsees, if_pos rfl]
      exact hcall
  rw [tokens]
  apply unary_of_primary rfl
  unfold primary
  apply Succeeds.bind (identifier_push rfl)
  rintro _ ⟨h₁, rfl⟩
  apply Succeeds.bind hnamed
  rintro _ ⟨h₂, rfl⟩
  exact .pure ⟨_, rfl⟩

/-- The tokens of every expression that can be written are read as the expression. -/
theorem Writable.reads (hbare : ∀ n, bare n = true → IsRoutine s n) (he : e.Writable s) :
    e.Reads s bare := by
  induction he with
  | int hv => exact reads_int hv
  | bool => exact reads_bool
  | var hn hs ht => exact reads_var (.var hn hs ht)
  | unary _ ht ih => exact reads_unary ih ht
  | binary _ _ ht ihl ihr => exact reads_binary ihl ihr ht
  | call _ hs hsymbol hr ht ha hp ih =>
    subst hsymbol
    exact reads_call (hbare _) hs hr ht ha ih hp
  | index ha hd ht hi hit iha ihi =>
    exact reads_index (.index ha hd ht hi hit) iha hd ihi ht hit
  | field hr hd hn ht hf ih => exact reads_field (.field hr hd hn ht hf) ih hd ht hf

/-! ### Texts -/

/-- What is read where all positions are erased is read, with positions, where they are not. -/
theorem expression_of_erasing
    (h : Succeeds (expression (erasing.scopes s) (erasing.cursor c))
      (·.Is (erasing.expr e) (erasing.cursor d))) :
    ∃ t, expression s c = .ok t ∧ erasing.expr t.value = erasing.expr e ∧
      erasing.cursor t.rest = erasing.cursor d := by
  obtain ⟨_, hread, hlt, rfl⟩ := h
  obtain ⟨t, ht, hsame⟩ := (erasing.expression_cursor s c).exists_of_ok hread
  exact ⟨t, ht, congrArg Taken.value hsame, congrArg Taken.rest hsame⟩

/-- Reading inverts printing: in front of anything that ends an expression, the text of an
expression is read as this expression but for the positions, and what follows it is left. -/
theorem expression_printed (hbare : ∀ n, bare n = true → IsRoutine s n) (he : e.Writable s)
    {p stop : Position} {more : List Char} (hmore : ∀ c ∈ more.head?, isBlank c = true)
    (hd : onText (p.afterAll (printed (e.tokens bare)).toList) more stop = .ok d)
    (hclose : d.current.kind.Closes 3) :
    ∃ c t, onText p ((printed (e.tokens bare)).toList ++ more) stop = .ok c ∧
      expression s c = .ok t ∧ erasing.expr t.value = erasing.expr e ∧
      erasing.cursor t.rest = erasing.cursor d := by
  have hne : e.tokens bare ≠ [] := by
    obtain ⟨t, ts, htokens, -, -⟩ := he.head bare
    rw [htokens]
    exact List.cons_ne_nil t ts
  obtain ⟨c, hc, hcursor⟩ := onText_printed hne he.printable hmore hd
  have hread := (he.reads hbare).expression (d := erasing.cursor d) hclose
  rw [← hcursor] at hread
  obtain ⟨t, ht, hvalue, hrest⟩ := expression_of_erasing hread
  exact ⟨c, t, hc, ht, hvalue, hrest⟩

/-- A product with a difference of a difference on its left, compared with an integer. -/
theorem expression_printed_grouped :
    ∃ (s : Scopes) (e : Expr), e.Writable s ∧
      printed (e.tokens fun _ => false) = "( row [ next ( 1 ) ] - ( 2 - 3 ) ) * - 4 < 5" ∧
      ∃ c t, onText .start (printed (e.tokens fun _ => false)).toList .start = .ok c ∧
        expression s c = .ok t ∧ erasing.expr t.value = erasing.expr e ∧
        t.rest.current.kind = .endOfFile := by
  have hword : Name.IsIdentifier ⟨"row"⟩ ∧ Name.IsIdentifier ⟨"next"⟩ := by
    refine ⟨⟨?_, by decide⟩, ⟨?_, by decide⟩⟩
    · exact State.run_start (s := .word).1 (by decide)
    · exact State.run_start (s := .word).1 (by decide)
  have he : Writable
      ⟨⟨[(⟨"Row"⟩, .var .start (.array (.int .start 1) (.int .start 3) .integer)),
        (⟨"next"⟩, .routine ⟨.start, "next", ⟨[(⟨"n"⟩, .var .start .integer)]⟩, some .integer,
          none, true⟩)]⟩, []⟩
      (binary .start .boolean .less
        (binary .start .integer .mul
          (binary .start .integer .sub
            (index .start .integer
              (var .start (.array (.int .start 1) (.int .start 3) .integer) ⟨"row"⟩ .global)
              (call .start .integer ⟨"next"⟩ "next" [int .start 1] [.integer]))
            (binary .start .integer .sub (int .start 2) (int .start 3)))
          (unary .start .integer .minus (int .start 4)))
        (int .start 5)) := by
    apply Writable.binary _ (.int (by decide)) rfl
    apply Writable.binary _ (.unary (.int (by decide)) rfl) rfl
    apply Writable.binary _ (.binary (.int (by decide)) (.int (by decide)) rfl) rfl
    apply Writable.index (.var hword.1 rfl rfl) rfl rfl _ rfl
    refine Writable.call hword.2 rfl rfl rfl rfl ?_ ?_
    · exact List.forall_mem_singleton.2 (.int (by decide))
    · exact .cons rfl .nil
  obtain ⟨c, t, hc, ht, hvalue, hrest⟩ :=
    @expression_printed _ _ _ (fun _ => false) (fun _ h => absurd h Bool.false_ne_true) he
      .start .start [] (fun _ h => absurd h (Option.not_mem_none _)) (onText_nil _ .start)
      (closes_of_isCloser rfl)
  rw [List.append_nil] at hc
  have hkind := congrArg (fun c : Cursor => c.current.kind) hrest
  exact ⟨_, _, he, by cbv, c, t, hc, ht, hvalue, hkind⟩

end Expr

end MiniPascal
