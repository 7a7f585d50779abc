import MiniPascal.Proofs.Phrase.Basic
import MiniPascal.Proofs.Printing.Expression

namespace MiniPascal

open Grammar Token Cursor Read
open Cursor.Within

namespace Token.Kind

variable {k : Kind}

theorem isPart_of_operator? {p : Precedence} {op : BinOp} (h : p.operator? k = some op) :
    k.isPart = true := by
  unfold Precedence.operator? at h
  split at h <;> first | rfl | cases h

theorem isPart_of_unaryOperator? {op : UnaryOp} (h : unaryOperator? k = some op) :
    k.isPart = true := by
  unfold unaryOperator? at h
  split at h <;> first | rfl | cases h

theorem isPart_of_truthValue? {b : Bool} (h : truthValue? k = some b) : k.isPart = true := by
  unfold truthValue? at h
  split at h <;> first | rfl | cases h

theorem not_isForeign_of_isPart (h : k.isPart = true) : k.isForeign = false := by
  simp [isForeign, h]

/-- What selects parts of expressions selects nothing that ends them. -/
theorem none_of_isForeign {α : Type} {select : Kind → Option α}
    (hselect : ∀ k a, select k = some a → k.isPart = true) (h : k.isForeign = true) :
    select k = none := by
  cases hk : select k with
  | none => rfl
  | some a =>
    have hpart := hselect k a hk
    rw [part_of_isForeign h] at hpart
    cases hpart

end Token.Kind

/-- Where no bracket is open, the phrase is followed by what ends expressions. -/
abbrev Cursor.Ends (k k' : Cursor) (n : Nat) : Prop := Beyond k k' n (·.isForeign = true)

namespace Cursor.Ends

variable {k k' : Cursor} {n : Nat}

theorem ne (h : k.Ends k' n) {kind : Kind} (hkind : kind.isForeign = false) :
    Beyond k k' n (· ≠ kind) := by
  refine h.mono ?_
  rintro _ hforeign rfl
  rw [hkind] at hforeign
  cases hforeign

theorem select_none (h : k.Ends k' n) {α : Type} {select : Kind → Option α}
    (hselect : ∀ kind a, select kind = some a → kind.isPart = true) :
    Beyond k k' n (select · = none) := h.mono fun _ => Kind.none_of_isForeign hselect

end Cursor.Ends

variable {s : Scopes} {k k' : Cursor}

/-- The end of an expression is no primary expression. -/
theorem primary_foreign (h : k.current.kind.isForeign = true) : primary s k = k.unexpected := by
  have hpart := Kind.part_of_isForeign h
  unfold primary
  split
  · rename_i hkind
    rw [hkind] at hpart
    cases hpart
  · rename_i hkind
    rw [hkind] at hpart
    cases hpart
  · rename_i hkind
    rw [hkind] at hpart
    split
    · rename_i hb
      rw [Kind.isPart_of_truthValue? hb] at hpart
      cases hpart
    · rfl
  · rename_i hkind
    rw [hkind] at h
    cases h
  · rename_i hkind
    rw [hkind] at hpart
    cases hpart
  · rfl

/-- The end of an expression selects nothing. -/
theorem selectors_foreign {e : Expr} (h : k.current.kind.isForeign = true) :
    Succeeds (selectors s e k) (·.Is e k) := by
  apply selectors_none <;>
  · intro hkind
    rw [hkind] at h
    cases h

theorem number_within {n : Nat} {c c' : Cursor} {kind : Kind} (h : Within k k' n c c')
    (hk : Beyond k k' n (· ≠ kind)) (hpart : kind.isPart = true) (hc : c.current.kind = kind)
    (hc' : c'.current.kind = kind) :
    Alike (Taken.Beside (Within k k' n)) (Grammar.number c) (Grammar.number c') := by
  unfold Grammar.number
  rw [hc, hc']
  refine .taken (h.expect (Kind.leads_part hpart) hk) fun t d d' hd hd' hrest => ?_
  exact .same (literal t) fun e => .pure ⟨rfl, hrest⟩

-- The measures are those of the rules, whose calls are the induction hypotheses.
mutual

theorem expression_within {n : Nat} {c c' : Cursor} (hk : k.Ends k' n) (h : Within k k' n c c') :
    Alike (Taken.Beside (Within k k' n)) (expression s c) (expression s c') := by
  rw [expression, expression.eq_def s c']
  exact operation_within hk .relational h
termination_by 16 * c.size + 11
decreasing_by simp only [Precedence.height]; omega

theorem operand_within {n : Nat} {c c' : Cursor} (hk : k.Ends k' n) (p : Precedence)
    (h : Within k k' n c c') :
    Alike (Taken.Beside (Within k k' n)) (operand s p c) (operand s p c') := by
  rw [operand.eq_def s p c, operand.eq_def s p c']
  cases p with
  | relational => exact operation_within hk .additive h
  | additive => exact operation_within hk .multiplicative h
  | multiplicative => exact unary_within hk h
termination_by 16 * c.size + 2 * p.height + 3
decreasing_by all_goals simp only [Precedence.height]; omega

theorem operation_within {n : Nat} {c c' : Cursor} (hk : k.Ends k' n) (p : Precedence)
    (h : Within k k' n c c') :
    Alike (Taken.Beside (Within k k' n)) (operation s p c) (operation s p c') := by
  rw [operation.eq_def s p c, operation.eq_def s p c']
  refine .taken (operand_within hk p h) fun left d d' hd hd' hrest => ?_
  refine .passed (operations_within hk p left hrest) fun e d₂ d₂' hd₂ hd₂' hrest => ?_
  exact .pure ⟨rfl, hrest⟩
termination_by 16 * c.size + 2 * p.height + 4

theorem operations_within {n : Nat} {c c' : Cursor} (hk : k.Ends k' n) (p : Precedence)
    (left : Expr) (h : Within k k' n c c') :
    Alike (Passed.Beside (Within k k' n)) (operations s p left c) (operations s p left c') := by
  rw [operations.eq_def s p left c, operations.eq_def s p left c']
  have hselect : ∀ kind op, p.operator? kind = some op → kind.isPart = true :=
    fun _ _ => Kind.isPart_of_operator?
  refine .accepted (h.accept (m := n) (by cases p <;> rfl)
    (fun kind op hop => Kind.leads_part (hselect kind op hop)) (hk.select_none hselect))
    (.pure ⟨rfl, h⟩) ?_
  rintro ⟨op, token⟩ d d' hd hd' hrest
  refine .taken (operand_within hk p hrest) fun right d₂ d₂' hd₂ hd₂' hrest => ?_
  refine .same _ fun e => ?_
  refine .passed (operations_within hk p e hrest) fun e d₃ d₃' hd₃ hd₃' hrest => ?_
  exact .pure ⟨rfl, hrest⟩
termination_by 16 * c.size
decreasing_by all_goals have := p.height_le; omega

theorem unary_within {n : Nat} {c c' : Cursor} (hk : k.Ends k' n) (h : Within k k' n c c') :
    Alike (Taken.Beside (Within k k' n)) (unary s c) (unary s c') := by
  rw [unary.eq_def s c, unary.eq_def s c']
  have hselect : ∀ kind op, unaryOperator? kind = some op → kind.isPart = true :=
    fun _ _ => Kind.isPart_of_unaryOperator?
  refine .accepted (h.accept (m := n) rfl
    (fun kind op hop => Kind.leads_part (hselect kind op hop)) (hk.select_none hselect))
    (primary_within hk h) ?_
  rintro ⟨op, token⟩ d d' hd hd' hrest
  refine .taken (unary_within hk hrest) fun a d₂ d₂' hd₂ hd₂' hrest => ?_
  exact .same _ fun e => .pure ⟨rfl, hrest⟩
termination_by 16 * c.size + 4

theorem primary_within {n : Nat} {c c' : Cursor} (hk : k.Ends k' n) (h : Within k k' n c c') :
    Alike (Taken.Beside (Within k k' n)) (primary s c) (primary s c') := by
  obtain ⟨t, ts, hts, hc, hc'⟩ | ⟨hn, rfl, rfl⟩ := h.cases
  · have hkind : c.current.kind = t.kind := congrArg (·.current.kind) hc
    have hkind' : c'.current.kind = t.kind := congrArg (·.current.kind) hc'
    rw [primary.eq_def s c, primary.eq_def s c', hkind, hkind']
    split
    · rename_i ht
      exact number_within h (hk.ne rfl) rfl (hkind.trans ht) (hkind'.trans ht)
    · rename_i ht
      exact number_within h (hk.ne rfl) rfl (hkind.trans ht) (hkind'.trans ht)
    · split
      · rename_i b hb
        have hpart := Kind.isPart_of_truthValue? hb
        have hforeign : Kind.isForeign (.keyword _) = false := Kind.not_isForeign_of_isPart hpart
        refine .taken (h.expect (Kind.leads_part hpart) (hk.ne hforeign))
          fun token d d' hd hd' hrest => ?_
        exact .pure ⟨rfl, hrest⟩
      · exact .error rfl
    · refine .taken (h.symbol Kind.leads_openParen (hk.ne rfl)) fun _ d d' hd hd' hrest => ?_
      refine .taken (expression_within (beyond_succ _) hrest) fun e d₂ d₂' hd₂ hd₂' hrest => ?_
      refine .taken (hrest.symbol Kind.leads_closeParen (beyond_succ _))
        fun _ d₃ d₃' hd₃ hd₃' hrest => ?_
      exact .pure ⟨rfl, hrest⟩
    · refine .taken (h.identifier (hk.ne rfl)) fun name d d' hd hd' hrest => ?_
      refine .passed (named_within hk name hrest) fun e d₂ d₂' hd₂ hd₂' hrest => ?_
      exact .pure ⟨rfl, hrest⟩
    · exact .error rfl
  · -- the phrase is over, and neither text goes on with an operand
    rw [primary_foreign (hk hn).1, primary_foreign (hk hn).2]
    exact .error rfl
termination_by 16 * c.size + 3

theorem named_within {n : Nat} {c c' : Cursor} (hk : k.Ends k' n) (name : Located Name)
    (h : Within k k' n c c') :
    Alike (Passed.Beside (Within k k' n)) (named s name c) (named s name c') := by
  rw [named.eq_def s name c, named.eq_def s name c', h.sees (hk.ne rfl)]
  split
  · exact callOf_within hk name h
  · refine .same _ ?_
    rintro ⟨d, storage⟩
    cases d with
    | var q t =>
      refine selectors_within (fun ts hts => ⟨ts, hts, rfl, rfl⟩) (hk.ne rfl) (fun hn e => ?_) _ h
      obtain ⟨_, hx, hle, rfl⟩ := selectors_foreign (s := s) (e := e) (hk hn).1
      obtain ⟨_, hy, hle', rfl⟩ := selectors_foreign (s := s) (e := e) (hk hn).2
      rw [hx, hy]
      exact .ok ⟨rfl, [], by rw [hn]; rfl, rfl, rfl⟩
    | const q v => exact .same _ fun constant => .pure ⟨rfl, h⟩
    | type q t => exact .error rfl
    | routine r => exact callOf_within hk name h
termination_by 16 * c.size + 2

theorem callOf_within {n : Nat} {c c' : Cursor} (hk : k.Ends k' n) (name : Located Name)
    (h : Within k k' n c c') :
    Alike (Passed.Beside (Within k k' n)) (callOf s name c) (callOf s name c') := by
  rw [callOf.eq_def s name c, callOf.eq_def s name c']
  refine .same _ fun r => ?_
  cases r.returns with
  | none => exact .error rfl
  | some t =>
    refine .passed (arguments_within hk name r.paramTypes h) fun args d d' hd hd' hrest => ?_
    exact .pure ⟨rfl, hrest⟩
termination_by 16 * c.size + 1

theorem arguments_within {n : Nat} {c c' : Cursor} (hk : k.Ends k' n) (name : Located Name)
    (params : List Ty) (h : Within k k' n c c') :
    Alike (Passed.Beside (Within k k' n)) (arguments s name params c)
      (arguments s name params c') := by
  rw [arguments.eq_def s name params c, arguments.eq_def s name params c']
  refine .accepted (h.acceptSymbol Kind.leads_openParen (hk.ne rfl))
    (.same _ fun _ => .pure ⟨rfl, h⟩) fun _ d d' hd hd' hrest => ?_
  dsimp only
  rw [hrest.sees (beyond_succ _)]
  split
  · refine .taken (hrest.symbol Kind.leads_closeParen (beyond_succ _))
      fun _ d₂ d₂' hd₂ hd₂' hrest => ?_
    exact .same _ fun _ => .pure ⟨rfl, hrest⟩
  · refine .taken (expressions_within hrest) fun args d₂ d₂' hd₂ hd₂' hrest => ?_
    refine .taken (hrest.symbol Kind.leads_closeParen (beyond_succ _))
      fun _ d₃ d₃' hd₃ hd₃' hrest => ?_
    exact .same _ fun _ => .pure ⟨rfl, hrest⟩
termination_by 16 * c.size

theorem expressions_within {n : Nat} {c c' : Cursor} (h : Within k k' (n + 1) c c') :
    Alike (Taken.Beside (Within k k' (n + 1))) (expressions s c) (expressions s c') := by
  rw [expressions.eq_def s c, expressions.eq_def s c']
  refine .taken (expression_within (beyond_succ _) h) fun e d d' hd hd' hrest => ?_
  refine .accepted (hrest.acceptSymbol Kind.leads_comma (beyond_succ _)) (.pure ⟨rfl, hrest⟩)
    fun _ d₂ d₂' hd₂ hd₂' hrest => ?_
  refine .taken (expressions_within hrest) fun es d₃ d₃' hd₃ hd₃' hrest => ?_
  exact .pure ⟨rfl, hrest⟩
termination_by 16 * c.size + 12

theorem selectors_within {n : Nat} {c c' : Cursor} {R : Cursor → Cursor → Prop}
    (hR : ∀ ts, isPhrase n ts = true → R (k.behind ts) (k'.behind ts))
    (hname : Beyond k k' n (· ≠ .identifier))
    (hk : n = 0 → ∀ e, Alike (Passed.Beside R) (selectors s e k) (selectors s e k')) (e : Expr)
    (h : Within k k' n c c') :
    Alike (Passed.Beside R) (selectors s e c) (selectors s e c') := by
  obtain ⟨t, ts, hts, rfl, rfl⟩ | ⟨hn, rfl, rfl⟩ := h.cases
  · have hstay := hR (t :: ts) hts
    rw [selectors.eq_def s e (push _ _), selectors.eq_def s e (push (k'.behind ts) t)]
    refine .accepted (acceptSymbol_token hts Kind.leads_openSquare) ?_
      fun token d d' hd hd' hrest => ?_
    · dsimp only
      split
      · refine .accepted (acceptSymbol_token hts (Kind.leads_part rfl)) (.pure ⟨rfl, hstay⟩)
          fun token d d' hd hd' hrest => ?_
        refine .taken (hrest.identifier hname) fun name d₂ d₂' hd₂ hd₂' hrest => ?_
        refine .same _ fun a => ?_
        refine .passed (selectors_within hR hname hk a hrest) fun b d₃ d₃' hd₃ hd₃' hrest => ?_
        exact .pure ⟨rfl, hrest⟩
      · exact .pure ⟨rfl, hstay⟩
    · refine .taken (indices_within e token.position hrest) fun a d₂ d₂' hd₂ hd₂' hrest => ?_
      refine .taken (hrest.symbol Kind.leads_closeSquare (beyond_succ _))
        fun _ d₃ d₃' hd₃ hd₃' hrest => ?_
      refine .passed (selectors_within hR hname hk a hrest) fun b d₄ d₄' hd₄ hd₄' hrest => ?_
      exact .pure ⟨rfl, hrest⟩
  · exact hk hn e
termination_by 16 * c.size

theorem indices_within {n : Nat} {c c' : Cursor} (e : Expr) (p : Position)
    (h : Within k k' (n + 1) c c') :
    Alike (Taken.Beside (Within k k' (n + 1))) (indices s e p c) (indices s e p c') := by
  rw [indices.eq_def s e p c, indices.eq_def s e p c']
  refine .taken (expression_within (beyond_succ _) h) fun i d d' hd hd' hrest => ?_
  refine .same _ fun a => ?_
  refine .accepted (hrest.acceptSymbol Kind.leads_comma (beyond_succ _)) (.pure ⟨rfl, hrest⟩)
    fun t d₂ d₂' hd₂ hd₂' hrest => ?_
  refine .taken (indices_within a t.position hrest) fun b d₃ d₃' hd₃ hd₃' hrest => ?_
  exact .pure ⟨rfl, hrest⟩
termination_by 16 * c.size + 12

end

/-! ### Names without parentheses -/

/-- A place to assign to is read alike where selectors are. -/
theorem designator_alike {c c' : Cursor} {R : Cursor → Cursor → Prop}
    (h : ∀ e, Alike (Passed.Beside R) (selectors s e c) (selectors s e c')) (name : Located Name) :
    Alike (Passed.Beside R) (designator s name c) (designator s name c') := by
  unfold designator
  refine .same (Read.checked (s.lookup name)) ?_
  rintro ⟨d, storage⟩
  cases d with
  | var q t => exact h _
  | const q e => exact .error rfl
  | type q t => exact .error rfl
  | routine r => exact .error rfl

/-- A phrase that does not start a call does not do so in front of anything else. -/
theorem behind_openParen {ts : List Token}
    (hcall : ts.head?.map (·.kind) ≠ some (.symbol .openParen))
    (hk : k.current.kind ≠ .symbol .openParen) :
    (k.behind ts).current.kind ≠ .symbol .openParen := by
  cases ts with
  | nil => exact hk
  | cons t ts => exact fun h => hcall (congrArg some h)

/-- Behind a name without parentheses, a call takes no further tokens. -/
theorem arguments_none {c : Cursor} {name : Located Name} {params : List Ty}
    (hc : c.current.kind ≠ .symbol .openParen) :
    arguments s name params c = do
      checkArguments name params []
      return .stay [] := by
  unfold arguments
  rw [acceptSymbol_none hc]
  rfl

/-- A name without parentheses is read alike where selectors are. -/
theorem named_alike {c c' : Cursor} {R : Cursor → Cursor → Prop}
    (hc : c.current.kind ≠ .symbol .openParen) (hc' : c'.current.kind ≠ .symbol .openParen)
    (hR : R c c') (h : ∀ e, Alike (Passed.Beside R) (selectors s e c) (selectors s e c'))
    (name : Located Name) : Alike (Passed.Beside R) (named s name c) (named s name c') := by
  unfold named
  rw [sees_of_ne hc, sees_of_ne hc']
  refine .same (Read.checked (s.lookup name)) ?_
  rintro ⟨d, storage⟩
  cases d with
  | var q t => exact h _
  | const q e => exact .same (Read.checked e.fold) fun constant => .pure ⟨rfl, hR⟩
  | type q t => exact .error rfl
  | routine r =>
    show Alike _ (callOf s name c) (callOf s name c')
    unfold callOf
    refine .same (Read.checked (s.lookupRoutine name)) fun r => ?_
    cases r.returns with
    | none => exact .error rfl
    | some t =>
      dsimp only
      rw [arguments_none hc, arguments_none hc', bind_assoc, bind_assoc]
      exact .same _ fun _ => .pure ⟨rfl, hR⟩

theorem BinOp.isPart_token (op : BinOp) : op.token.kind.isPart = true := by
  cases op <;> rfl

end MiniPascal
