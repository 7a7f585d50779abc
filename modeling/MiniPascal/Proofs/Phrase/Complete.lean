import MiniPascal.Proofs.Phrase.Expression
import MiniPascal.Proofs.Reading.Ensures

/-! Expressions by their grammar alone, and how far they are read whatever the names in them are. -/

namespace MiniPascal

open Grammar Token Cursor Read

/-! ### The grammar -/

namespace Token

/-- The forms that tokens can have. -/
inductive Form where
  | expression
  /-- What stands between binary operators. -/
  | unary
  /-- What stands behind unary operators. -/
  | primary
  /-- Indices and fields behind a name. -/
  | selectors
  /-- What a call has in parentheses. -/
  | arguments
  /-- Expressions with commas between them. -/
  | list

/-- The kind is that of a number or a truth value. -/
def Kind.IsLiteral (k : Kind) : Prop :=
  k = .integer ∨ k = .double ∨ k = .keyword .kwTrue ∨ k = .keyword .kwFalse

/-- The tokens have a form from the first to the last, whatever their names stand for. -/
inductive Complete : Form → List Token → Prop
  | operand {us : List Token} (hus : Complete .unary us) : Complete .expression us
  | operation {us vs : List Token} {t : Token} (op : BinOp) (hus : Complete .unary us)
    (ht : t.kind = op.token.kind) (hvs : Complete .expression vs) :
    Complete .expression (us ++ t :: vs)
  | plain {us : List Token} (hus : Complete .primary us) : Complete .unary us
  | signed {us : List Token} {t : Token} {op : UnaryOp} (ht : unaryOperator? t.kind = some op)
    (hus : Complete .unary us) : Complete .unary (t :: us)
  | literal {t : Token} (ht : t.kind.IsLiteral) : Complete .primary [t]
  | group {ts : List Token} {t u : Token} (ht : t.kind = .symbol .openParen)
    (hts : Complete .expression ts) (hu : u.kind = .symbol .closeParen) :
    Complete .primary (t :: (ts ++ [u]))
  | name {ts : List Token} {n : Token} (hn : n.kind = .identifier)
    (hts : Complete .selectors ts) : Complete .primary (n :: ts)
  | call {ts : List Token} {n : Token} (hn : n.kind = .identifier)
    (hts : Complete .arguments ts) : Complete .primary (n :: ts)
  | unselected : Complete .selectors []
  | index {ts us : List Token} {t u : Token} (ht : t.kind = .symbol .openSquare)
    (hts : Complete .list ts) (hu : u.kind = .symbol .closeSquare)
    (hus : Complete .selectors us) : Complete .selectors (t :: (ts ++ u :: us))
  | field {us : List Token} {t n : Token} (ht : t.kind = .symbol .dot)
    (hn : n.kind = .identifier) (hus : Complete .selectors us) : Complete .selectors (t :: n :: us)
  | noArguments {t u : Token} (ht : t.kind = .symbol .openParen)
    (hu : u.kind = .symbol .closeParen) : Complete .arguments [t, u]
  | someArguments {ts : List Token} {t u : Token} (ht : t.kind = .symbol .openParen)
    (hts : Complete .list ts) (hu : u.kind = .symbol .closeParen) :
    Complete .arguments (t :: (ts ++ [u]))
  | one {ts : List Token} (hts : Complete .expression ts) : Complete .list ts
  | more {ts us : List Token} {t : Token} (hts : Complete .expression ts)
    (ht : t.kind = .symbol .comma) (hus : Complete .list us) : Complete .list (ts ++ t :: us)

theorem Kind.IsLiteral.isPart {k : Kind} (h : k.IsLiteral) : k.isPart = true := by
  rcases h with rfl | rfl | rfl | rfl <;> rfl

/-- What is complete leaves as many brackets open as there were, of which a list needs one. -/
theorem Complete.isPhrase_append {f : Form} {ts us : List Token} {n : Nat} (h : Complete f ts)
    (hdepth : f = .list → n ≠ 0) : isPhrase n (ts ++ us) = isPhrase n us := by
  have hsymbol {t : Token} {s : Symbol} {n m : Nat} {ts : List Token} (ht : t.kind = .symbol s)
      (hs : (Kind.symbol s).depth? n = some m) : isPhrase n (t :: ts) = isPhrase m ts :=
    isPhrase_cons_of_eq (by rw [ht]; exact hs)
  have hpart {t : Token} {n : Nat} {ts : List Token} (ht : t.kind.isPart = true) :
      isPhrase n (t :: ts) = isPhrase n ts := isPhrase_cons_of_eq (Kind.depth?_part ht n)
  have hidentifier {t : Token} (ht : t.kind = .identifier) : t.kind.isPart = true := by
    rw [ht]
    rfl
  induction h generalizing n us with
  | operand hus ih => exact ih nofun
  | operation op hus ht hvs ihu ihv =>
    rw [List.append_assoc, List.cons_append, ihu nofun, hpart (ht ▸ op.isPart_token), ihv nofun]
  | plain hus ih => exact ih nofun
  | signed ht hus ih =>
    rw [List.cons_append, hpart (Kind.isPart_of_unaryOperator? ht), ih nofun]
  | literal ht => rw [List.cons_append, hpart ht.isPart, List.nil_append]
  | group ht hts hu ih =>
    rw [List.cons_append, List.append_assoc, hsymbol ht rfl, ih nofun, List.singleton_append,
      hsymbol hu rfl]
  | name hn hts ih => rw [List.cons_append, hpart (hidentifier hn), ih nofun]
  | call hn hts ih => rw [List.cons_append, hpart (hidentifier hn), ih nofun]
  | unselected => rw [List.nil_append]
  | index ht hts hu hus ih ihu =>
    rw [List.cons_append, hsymbol ht rfl, List.append_assoc, ih fun _ => Nat.succ_ne_zero _,
      List.cons_append, hsymbol hu rfl, ihu nofun]
  | field ht hn hus ih =>
    rw [List.cons_append, hpart (by rw [ht]; rfl), List.cons_append, hpart (hidentifier hn),
      ih nofun]
  | noArguments ht hu =>
    rw [List.cons_append, hsymbol ht rfl, List.singleton_append, hsymbol hu rfl]
  | someArguments ht hts hu ih =>
    rw [List.cons_append, hsymbol ht rfl, List.append_assoc, ih fun _ => Nat.succ_ne_zero _,
      List.singleton_append, hsymbol hu rfl]
  | one hts ih => exact ih nofun
  | more hts ht hus ih ihu =>
    -- a comma belongs to a phrase only between brackets
    obtain ⟨m, rfl⟩ := Nat.exists_eq_succ_of_ne_zero (hdepth rfl)
    rw [List.append_assoc, List.cons_append, ih nofun, hsymbol ht rfl, ihu hdepth]

/-- What is complete is a phrase. -/
theorem Complete.isPhrase {f : Form} {ts : List Token} (h : Complete f ts) (hf : f ≠ .list) :
    Token.isPhrase 0 ts = true := by
  have happend : Token.isPhrase 0 (ts ++ []) = Token.isPhrase 0 [] :=
    h.isPhrase_append fun hlist => absurd hlist hf
  rw [List.append_nil] at happend
  rw [happend]
  rfl

/-- Selectors do not start a call. -/
theorem Complete.head_ne {ts : List Token} (h : Complete .selectors ts) :
    ts.head?.map (·.kind) ≠ some (.symbol .openParen) := by
  cases h with
  | unselected => exact nofun
  | index ht | field ht =>
    rw [List.head?_cons, Option.map_some, ht]
    exact nofun

/-- Positions do not matter for what is complete. -/
theorem Complete.erasing {f : Form} {ts : List Token} (h : Complete f ts) :
    Complete f (ts.map Recoding.erasing.token) := by
  induction h with
  | operand _ ih => exact .operand ih
  | operation op _ ht _ ihu ihv =>
    rw [List.map_append, List.map_cons]
    exact .operation op ihu ht ihv
  | plain _ ih => exact .plain ih
  | signed ht _ ih => exact .signed ht ih
  | literal ht => exact .literal ht
  | group ht _ hu ih =>
    rw [List.map_cons, List.map_append, List.map_singleton]
    exact .group ht ih hu
  | name hn _ ih => exact .name hn ih
  | call hn _ ih => exact .call hn ih
  | unselected => exact .unselected
  | index ht _ hu _ ih ihu =>
    rw [List.map_cons, List.map_append, List.map_cons]
    exact .index ht ih hu ihu
  | field ht hn _ ih => exact .field ht hn ih
  | noArguments ht hu => exact .noArguments ht hu
  | someArguments ht _ hu ih =>
    rw [List.map_cons, List.map_append, List.map_singleton]
    exact .someArguments ht ih hu
  | one _ ih => exact .one ih
  | more _ ht _ ih ihu =>
    rw [List.map_append, List.map_cons]
    exact .more ih ht ihu

end Token

/-- No primary expression starts with a unary operator. -/
theorem Token.Complete.unaryOperator?_behind {k : Cursor} {ts : List Token}
    (h : Complete .primary ts) : unaryOperator? (k.behind ts).current.kind = none := by
  have hhead {t : Token} {us : List Token} {kind : Kind} (ht : t.kind = kind)
      (hkind : unaryOperator? kind = none) :
      unaryOperator? (k.behind (t :: us)).current.kind = none := by
    rw [behind_cons, push_current, ht]
    exact hkind
  cases h with
  | literal ht => rcases ht with ht | ht | ht | ht <;> exact hhead ht rfl
  | group ht => exact hhead ht rfl
  | name hn => exact hhead hn rfl
  | call hn => exact hhead hn rfl

/-- A point or a bracket is in sight, with which something could be selected. -/
def Cursor.AtSelector (c : Cursor) : Prop :=
  c.current.kind = .symbol .dot ∨ c.current.kind = .symbol .openSquare

/-- Behind selectors is the end, or they start with a selector. -/
theorem Token.Complete.behind_cases {ts : List Token} (h : Complete .selectors ts) (k : Cursor) :
    (k.behind ts).AtSelector ∨ k.behind ts = k := by
  cases h with
  | unselected => exact .inr rfl
  | index ht => exact .inl (.inr ht)
  | field ht => exact .inl (.inl ht)

theorem Token.Complete.sees_behind {k : Cursor} {ts : List Token} (h : Complete .arguments ts) :
    (k.behind ts).sees .openParen = true := by
  cases h with
  | noArguments ht => exact sees_push ht
  | someArguments ht => exact sees_push ht

/-- Nothing that ends expressions starts what is complete. -/
theorem Token.Complete.behind_ne {f : Form} {ts : List Token} {kind : Kind} (h : Complete f ts)
    (hf : f ≠ .selectors) (hkind : kind.isForeign = true) (k : Cursor) :
    (k.behind ts).current.kind ≠ kind := by
  have hhead {t : Token} {us : List Token} {x : Kind} {k : Cursor} (ht : t.kind = x)
      (hx : x.isForeign = false) : (k.behind (t :: us)).current.kind ≠ kind := by
    rintro rfl
    rw [behind_cons, push_current, ht, hx] at hkind
    cases hkind
  induction h generalizing k with
  | operand _ ih | plain _ ih | one _ ih => exact ih nofun k
  | operation _ _ _ _ ih | more _ _ _ ih =>
    rw [behind_append]
    exact ih nofun _
  | signed ht => exact hhead rfl (Kind.not_isForeign_of_isPart (Kind.isPart_of_unaryOperator? ht))
  | literal ht => exact hhead rfl (Kind.not_isForeign_of_isPart ht.isPart)
  | group ht | noArguments ht | someArguments ht => exact hhead ht rfl
  | name hn | call hn => exact hhead hn rfl
  | unselected | index | field => exact absurd rfl hf

/-! ### Readings -/

section

variable {α β : Type} {c : Cursor} {s : Scopes}

/-- The symbol that is expected has been in sight. -/
theorem Cursor.symbol_ensures (x : Symbol) :
    Ensures (c.symbol x) fun _ => c.current.kind = .symbol x := by
  unfold Cursor.symbol Cursor.expect
  split
  · exact .error
  · split
    · next h => exact fun _ _ => h
    · exact .error

theorem closes_of_isForeign {kind : Token.Kind} (h : kind.isForeign = true) (n : Nat) :
    kind.Closes n := by
  refine ⟨fun p _ => Kind.none_of_isForeign (fun _ _ => Kind.isPart_of_operator?) h, ?_, ?_, ?_⟩
  all_goals
    rintro rfl
    cases h

/-- Where an expression ends that has been read from one in front of `k`: at a selector, at its end,
or at an operator that is not tighter than a level of height `n`. -/
inductive Cursor.Halts (k : Cursor) (n : Nat) (c : Cursor) : Prop
  | selector (h : c.AtSelector)
  | whole (h : c = k)
  | operator {t : Token} {ts : List Token} (op : BinOp) (ht : t.kind = op.token.kind)
    (hn : n ≤ op.precedence.height) (hts : Complete .expression ts)
    (hc : c = (k.behind ts).push t)

theorem Cursor.AtSelector.ne {x : Symbol} (h : c.AtSelector) (hdot : x ≠ .dot)
    (hsquare : x ≠ .openSquare) : c.current.kind ≠ .symbol x := by
  rcases h with h | h <;> rw [h]
  · exact fun heq => hdot (Kind.symbol.inj heq).symm
  · exact fun heq => hsquare (Kind.symbol.inj heq).symm

theorem Cursor.AtSelector.comma_none (h : c.AtSelector) : c.acceptSymbol .comma = .ok none :=
  acceptSymbol_none (h.ne nofun nofun)

theorem Cursor.comma_none {k : Cursor} (hcomma : k.current.kind ≠ .symbol .comma)
    (h : c.AtSelector ∨ c = k) : c.acceptSymbol .comma = .ok none := by
  rcases h with h | rfl
  · exact h.comma_none
  · exact acceptSymbol_none hcomma

theorem Cursor.AtSelector.select_none {γ : Type} {select : Token.Kind → Option γ}
    (h : c.AtSelector) (hdot : select (.symbol .dot) = none)
    (hsquare : select (.symbol .openSquare) = none) : select c.current.kind = none := by
  rcases h with h | h <;> rw [h]
  · exact hdot
  · exact hsquare

/-- A literal is read without its surroundings. -/
theorem primary_literal {k : Cursor} {t : Token} (ht : t.kind.IsLiteral) :
    Ensures (primary s (k.push t)) fun u => u.rest = k := by
  have hexpect : Ensures ((k.push t).expect t.kind) fun u => u.rest = k := by
    obtain ⟨_, hx, hlt, rfl⟩ := expect_push (c := k) (t := t)
      (by rcases ht with ht | ht | ht | ht <;> rw [ht] <;> exact nofun)
    rw [hx]
    exact .ok rfl
  have hnumber : Ensures (Grammar.number (k.push t)) fun u => u.rest = k := by
    unfold Grammar.number
    refine .bind hexpect ?_
    rintro ⟨_, c₁, h₁⟩ hrest
    exact .step fun e => .pure hrest
  unfold primary
  rcases ht with ht | ht | ht | ht
  · rw [show (k.push t).current.kind = .integer from ht]
    exact hnumber
  · rw [show (k.push t).current.kind = .double from ht]
    exact hnumber
  all_goals
    rw [ht] at hexpect
    rw [show (k.push t).current.kind = _ from ht]
    refine .bind hexpect ?_
    rintro ⟨_, c₁, h₁⟩ hrest
    exact .pure hrest

/-- What a list of symbols that close it ends with is not a selector. -/
theorem closing_ensures {k : Cursor} {u : Token} {x : Symbol} (hu : u.kind = .symbol x)
    (hdot : x ≠ .dot) (hsquare : x ≠ .openSquare) (h : c.AtSelector ∨ c = k.push u) :
    Ensures (c.symbol x) fun t => t.rest = k := by
  rcases h with h | rfl
  · exact fun t ht => absurd (Cursor.symbol_ensures x t ht) (h.ne hdot hsquare)
  · obtain ⟨_, hx, hlt, rfl⟩ := symbol_push (c := k) hu
    rw [hx]
    exact .ok rfl

-- The measures are those of the rules, whose calls are the induction hypotheses.
mutual

theorem expression_halts {k c : Cursor} {ts : List Token} (h : Complete .expression ts)
    (hc : c = k.behind ts) (hk : k.current.kind.isForeign = true) :
    Ensures (expression s c) fun t => t.rest.AtSelector ∨ t.rest = k := by
  rw [expression]
  refine (operation_halts .relational h hc hk).mono ?_
  rintro t (ht | ht | ⟨op, -, hn, -, -⟩)
  · exact .inl ht
  · exact .inr ht
  · exact absurd (hn.trans op.precedence.height_le) (by decide)
termination_by 16 * c.size + 11
decreasing_by simp only [Precedence.height]; omega

theorem operand_halts (p : Precedence) {k c : Cursor} {ts : List Token}
    (h : Complete .expression ts) (hc : c = k.behind ts) (hk : k.current.kind.isForeign = true) :
    Ensures (operand s p c) fun t => k.Halts p.height t.rest := by
  rw [operand.eq_def]
  cases p with
  | relational => exact operation_halts .additive h hc hk
  | additive => exact operation_halts .multiplicative h hc hk
  | multiplicative =>
    -- only at the tightest level the tokens tell whether there is an operator
    cases h with
    | operand hus =>
      refine (unary_halts hus hc (closes_of_isForeign hk 0)).mono ?_
      rintro t (ht | ht)
      · exact .selector ht
      · exact .whole ht
    | @operation us vs u op hus hu hvs =>
      have hcloses : ((k.behind vs).push u).current.kind.Closes 0 := by
        show u.kind.Closes 0
        rw [hu]
        exact op.token_closes.mono (Nat.zero_le _)
      rw [behind_append] at hc
      refine (unary_halts hus hc hcloses).mono ?_
      rintro t (ht | ht)
      · exact .selector ht
      · exact .operator op hu (by cases op <;> decide) hvs ht
termination_by 16 * c.size + 2 * p.height + 3
decreasing_by all_goals simp only [Precedence.height]; omega

theorem operation_halts (p : Precedence) {k c : Cursor} {ts : List Token}
    (h : Complete .expression ts) (hc : c = k.behind ts) (hk : k.current.kind.isForeign = true) :
    Ensures (operation s p c) fun t => k.Halts (p.height + 1) t.rest := by
  rw [operation.eq_def]
  refine .bind (operand_halts p h hc hk) ?_
  rintro ⟨left, c₁, h₁⟩ hhalts
  refine .bind (operations_halts p left hhalts hk) ?_
  rintro ⟨e, c₂, h₂⟩ hhalts
  exact .pure hhalts
termination_by 16 * c.size + 2 * p.height + 4

theorem operations_halts (p : Precedence) {k c : Cursor} (left : Expr) (h : k.Halts p.height c)
    (hk : k.current.kind.isForeign = true) :
    Ensures (operations s p left c) fun t => k.Halts (p.height + 1) t.rest := by
  rw [operations.eq_def]
  cases h with
  | selector h =>
    rw [accept_none (h.select_none (by cases p <;> rfl) (by cases p <;> rfl))]
    exact .pure (.selector h)
  | whole h =>
    rw [accept_none (by rw [h]; exact (closes_of_isForeign hk _).operator p le_rfl)]
    exact .pure (.whole h)
  | @operator u ts op hu hn hts hc =>
    -- an operator of this level is taken, and one of a looser level is left
    by_cases hp : p = op.precedence
    · have hselect : p.operator? u.kind = some op := by
        rw [hu, hp]
        exact op.operator?_token
      obtain ⟨_, hx, _, rfl, hlt, rfl⟩ := accept_push (c := k.behind ts)
        (by cases p <;> rfl) hselect
      have hsize : (k.behind ts).size < c.size := by rwa [hc]
      rw [hc, hx]
      show Ensures (operand s p (k.behind ts) >>= _) _
      refine .bind (operand_halts p hts rfl hk) ?_
      rintro ⟨right, c₁, h₁⟩ hhalts
      refine .step fun e => ?_
      refine .bind (operations_halts p e hhalts hk) ?_
      rintro ⟨e', c₂, h₂⟩ hhalts
      exact .pure hhalts
    · have hnone : p.operator? c.current.kind = none := by
        rw [hc, push_current, hu]
        exact BinOp.operator?_token_ne hp
      -- a tighter operator has been taken with the operand
      have hlt : p.height + 1 ≤ op.precedence.height := by
        revert hn hp
        cases p <;> cases op <;> decide
      rw [accept_none hnone]
      exact .pure (.operator op hu hlt hts hc)
termination_by 16 * c.size
decreasing_by all_goals have := p.height_le; omega

theorem unary_halts {k c : Cursor} {ts : List Token} (h : Complete .unary ts)
    (hc : c = k.behind ts) (hk : k.current.kind.Closes 0) :
    Ensures (unary s c) fun t => t.rest.AtSelector ∨ t.rest = k := by
  rw [unary.eq_def]
  cases h with
  | plain hus =>
    rw [accept_none (by rw [hc]; exact hus.unaryOperator?_behind)]
    exact primary_halts hus hc hk
  | @signed us t op ht hus =>
    obtain ⟨_, hx, _, rfl, hlt, rfl⟩ := accept_push (c := k.behind us) rfl ht
    have hsize : (k.behind us).size < c.size := by rwa [hc]
    rw [hc, behind_cons, hx]
    show Ensures (unary s (k.behind us) >>= _) _
    refine .bind (unary_halts hus rfl hk) ?_
    rintro ⟨a, c₁, h₁⟩ hhalts
    exact .step fun e => .pure hhalts
termination_by 16 * c.size + 4

theorem primary_halts {k c : Cursor} {ts : List Token} (h : Complete .primary ts)
    (hc : c = k.behind ts) (hk : k.current.kind.Closes 0) :
    Ensures (primary s c) fun t => t.rest.AtSelector ∨ t.rest = k := by
  cases h with
  | @literal t ht =>
    rw [hc]
    exact (primary_literal ht).mono fun _ => .inr
  | @group us t u ht hts hu =>
    obtain ⟨_, hx, hlt, rfl⟩ := symbol_push (c := (k.push u).behind us) ht
    rw [behind_cons, behind_append] at hc
    have hkind : c.current.kind = .symbol .openParen := by rwa [hc]
    have hsize : ((k.push u).behind us).size < c.size := by rwa [hc]
    rw [primary.eq_def, hkind, hc]
    show Ensures (symbol (((k.push u).behind us).push t) _ >>= _) _
    rw [hx]
    show Ensures (expression s ((k.push u).behind us) >>= _) _
    refine .bind (expression_halts hts rfl (by rw [push_current, hu]; rfl)) ?_
    rintro ⟨e, c₁, h₁⟩ hhalts
    -- an expression that stops at a selector misses the parenthesis, and the text is refused
    refine .bind (closing_ensures hu nofun nofun hhalts) ?_
    rintro ⟨_, c₂, h₂⟩ hrest
    exact .pure (.inr hrest)
  | @name us n hn hts =>
    obtain ⟨_, hx, hlt, rfl⟩ := identifier_push (c := k.behind us) hn
    have hkind : c.current.kind = .identifier := by rwa [hc]
    have hsize : (k.behind us).size < c.size := by rwa [hc]
    rw [primary.eq_def, hkind, hc, behind_cons]
    show Ensures (identifier _ >>= _) _
    rw [hx]
    show Ensures (named s ⟨n.position, ⟨n.text⟩⟩ (k.behind us) >>= _) _
    refine .bind (named_halts _ hts rfl hk) ?_
    rintro ⟨e, c₁, h₁⟩ hhalts
    exact .pure hhalts
  | @call us n hn hts =>
    obtain ⟨_, hx, hlt, rfl⟩ := identifier_push (c := k.behind us) hn
    have hkind : c.current.kind = .identifier := by rwa [hc]
    have hsize : (k.behind us).size < c.size := by rwa [hc]
    rw [primary.eq_def, hkind, hc, behind_cons]
    show Ensures (identifier _ >>= _) _
    rw [hx]
    show Ensures (named s ⟨n.position, ⟨n.text⟩⟩ (k.behind us) >>= _) _
    refine .bind (called_halts _ hts rfl) ?_
    rintro ⟨e, c₁, h₁⟩ hrest
    exact .pure (.inr hrest)
termination_by 16 * c.size + 3

theorem named_halts (name : Located Name) {k c : Cursor} {ts : List Token}
    (h : Complete .selectors ts) (hc : c = k.behind ts) (hk : k.current.kind.Closes 0) :
    Ensures (named s name c) fun t => t.rest.AtSelector ∨ t.rest = k := by
  -- a constant and a call take nothing of the selectors
  have hstay : c.AtSelector ∨ c = k := by
    rw [hc]
    exact h.behind_cases k
  have hcall : c.current.kind ≠ .symbol .openParen := by
    rcases hstay with h | h
    · exact h.ne nofun nofun
    · rw [h]
      exact hk.openParen
  rw [named.eq_def, sees_of_ne hcall]
  refine .step ?_
  rintro ⟨d, storage⟩
  cases d with
  | var q t => exact selectors_halts _ h hc hk
  | const q v => exact .step fun constant => .pure hstay
  | type q t => exact .error
  | routine r =>
    show Ensures (callOf s name c) _
    unfold callOf
    refine .step fun r => ?_
    cases r.returns with
    | none => exact .error
    | some t =>
      dsimp only
      rw [arguments_none hcall, bind_assoc]
      exact .step fun _ => .pure hstay
termination_by 16 * c.size + 2

theorem called_halts (name : Located Name) {k c : Cursor} {ts : List Token}
    (h : Complete .arguments ts) (hc : c = k.behind ts) :
    Ensures (named s name c) fun t => t.rest = k := by
  have hsees : c.sees .openParen = true := by
    rw [hc]
    exact h.sees_behind
  rw [named.eq_def, hsees]
  show Ensures (callOf s name c) _
  rw [callOf.eq_def]
  refine .step fun r => ?_
  cases r.returns with
  | none => exact .error
  | some t =>
    refine .bind (arguments_halts name _ h hc) ?_
    rintro ⟨args, c₁, h₁⟩ hrest
    exact .pure hrest
termination_by 16 * c.size + 1

theorem arguments_halts (name : Located Name) (params : List Ty) {k c : Cursor} {ts : List Token}
    (h : Complete .arguments ts) (hc : c = k.behind ts) :
    Ensures (arguments s name params c) fun t => t.rest = k := by
  rw [arguments.eq_def]
  cases h with
  | @noArguments t u ht hu =>
    obtain ⟨_, hx, _, rfl, hlt, rfl⟩ := acceptSymbol_push (c := k.push u) ht
    obtain ⟨_, hy, hlt', rfl⟩ := symbol_push (c := k) hu
    rw [hc, behind_cons, behind_cons, behind_nil, hx]
    show Ensures (ite _ (symbol _ _ >>= _) _) _
    rw [if_pos (sees_push hu), hy]
    show Ensures (checkArguments name params [] >>= _) _
    exact .step fun _ => .pure rfl
  | @someArguments us t u ht hts hu =>
    obtain ⟨_, hx, _, rfl, hlt, rfl⟩ := acceptSymbol_push (c := (k.push u).behind us) ht
    rw [behind_cons, behind_append] at hc
    have hsize : ((k.push u).behind us).size < c.size := by rwa [hc]
    -- no expression starts with the parenthesis that ends the list
    have hclose : ((k.push u).behind us).sees .closeParen = false :=
      sees_of_ne (hts.behind_ne nofun rfl _)
    rw [hc]
    show Ensures (acceptSymbol (((k.push u).behind us).push t) _ >>= _) _
    rw [hx]
    show Ensures (ite _ _ (expressions s ((k.push u).behind us) >>= _)) _
    rw [hclose, if_neg Bool.false_ne_true]
    refine .bind (expressions_halts hts rfl (by rw [push_current, hu]; rfl)
      (by rw [push_current, hu]; exact nofun)) ?_
    rintro ⟨args, c₁, h₁⟩ hhalts
    refine .bind (closing_ensures hu nofun nofun hhalts) ?_
    rintro ⟨_, c₂, h₂⟩ hrest
    exact .step fun _ => .pure hrest
termination_by 16 * c.size

theorem expressions_halts {k c : Cursor} {ts : List Token} (h : Complete .list ts)
    (hc : c = k.behind ts) (hk : k.current.kind.isForeign = true)
    (hcomma : k.current.kind ≠ .symbol .comma) :
    Ensures (expressions s c) fun t => t.rest.AtSelector ∨ t.rest = k := by
  rw [expressions.eq_def]
  cases h with
  | one hts =>
    refine .bind (expression_halts hts hc hk) ?_
    rintro ⟨e, c₁, h₁⟩ hhalts
    dsimp only
    rw [comma_none hcomma hhalts]
    exact .pure hhalts
  | @more us vs t hts ht hus =>
    rw [behind_append] at hc
    refine .bind (expression_halts hts hc (by rw [behind_cons, push_current, ht]; rfl)) ?_
    rintro ⟨e, c₁, h₁⟩ (hhalts | hrest)
    · -- stopped at a selector, where no comma is
      have hhalts : c₁.AtSelector := hhalts
      dsimp only
      rw [hhalts.comma_none]
      exact .pure (.inl hhalts)
    · -- read up to the comma, behind which the list goes on
      have hrest : c₁ = (k.behind vs).push t := hrest
      subst hrest
      obtain ⟨_, hx, _, rfl, hlt, rfl⟩ := acceptSymbol_push (c := k.behind vs) ht
      dsimp only
      rw [hx]
      show Ensures (expressions s (k.behind vs) >>= _) _
      refine .bind (expressions_halts hus rfl hk hcomma) ?_
      rintro ⟨es, c₂, h₂⟩ hhalts
      exact .pure hhalts
termination_by 16 * c.size + 12

theorem selectors_halts (e : Expr) {k c : Cursor} {ts : List Token} (h : Complete .selectors ts)
    (hc : c = k.behind ts) (hk : k.current.kind.Closes 0) :
    Ensures (selectors s e c) fun t => t.rest.AtSelector ∨ t.rest = k := by
  cases h with
  | unselected =>
    obtain ⟨_, hx, hle, rfl⟩ := selectors_none (s := s) (e := e) hk.openSquare hk.dot
    rw [hc, behind_nil, hx]
    exact .ok (.inr rfl)
  | @index us vs t u ht hts hu hus =>
    obtain ⟨_, hx, _, rfl, hlt, rfl⟩ := acceptSymbol_push (c := ((k.behind vs).push u).behind us) ht
    rw [behind_cons, behind_append, behind_cons] at hc
    have hsize : (((k.behind vs).push u).behind us).size < c.size := by rwa [hc]
    rw [selectors.eq_def, hc, hx]
    show Ensures (indices s e t.position (((k.behind vs).push u).behind us) >>= _) _
    -- an index that stops at a selector misses the bracket, and the text is refused
    refine .bind (indices_halts e _ hts rfl (by rw [push_current, hu]; rfl)
      (by rw [push_current, hu]; exact nofun)) ?_
    rintro ⟨a, c₁, h₁⟩ hhalts
    refine .bind (closing_ensures hu nofun nofun hhalts) ?_
    rintro ⟨_, c₂, h₂⟩ hrest
    have hrest : c₂ = k.behind vs := hrest
    refine .bind (selectors_halts a hus hrest hk) ?_
    rintro ⟨b, c₃, h₃⟩ hhalts
    exact .pure hhalts
  | @field vs t n ht hn hus =>
    rw [behind_cons] at hc
    have hsquare : c.current.kind ≠ .symbol .openSquare := by
      rw [hc, push_current, ht]
      exact nofun
    rw [selectors.eq_def, acceptSymbol_none hsquare]
    show Ensures (ite _ _ _) _
    split
    · obtain ⟨_, hx, _, rfl, hlt, rfl⟩ := acceptSymbol_push (c := k.behind (n :: vs)) ht
      obtain ⟨_, hy, hlt', rfl⟩ := identifier_push (c := k.behind vs) hn
      have hsize : (k.behind vs).size < c.size := hlt'.trans (by rwa [hc])
      rw [hc, hx]
      show Ensures (identifier ((k.behind vs).push n) >>= _) _
      rw [hy]
      show Ensures (Read.checked (e.checkField _ _) >>= _) _
      refine .step fun a => ?_
      refine .bind (selectors_halts a hus rfl hk) ?_
      rintro ⟨b, c₁, h₁⟩ hhalts
      exact .pure hhalts
    · -- only a record has fields: the point is left where it is
      refine .pure (.inl (.inl ?_))
      show c.current.kind = _
      rw [hc]
      exact ht
termination_by 16 * c.size

theorem indices_halts (e : Expr) (p : Position) {k c : Cursor} {ts : List Token}
    (h : Complete .list ts) (hc : c = k.behind ts) (hk : k.current.kind.isForeign = true)
    (hcomma : k.current.kind ≠ .symbol .comma) :
    Ensures (indices s e p c) fun t => t.rest.AtSelector ∨ t.rest = k := by
  rw [indices.eq_def]
  cases h with
  | one hts =>
    refine .bind (expression_halts hts hc hk) ?_
    rintro ⟨i, c₁, h₁⟩ hhalts
    refine .step fun a => ?_
    dsimp only
    rw [comma_none hcomma hhalts]
    exact .pure hhalts
  | @more us vs t hts ht hus =>
    rw [behind_append] at hc
    refine .bind (expression_halts hts hc (by rw [behind_cons, push_current, ht]; rfl)) ?_
    rintro ⟨i, c₁, h₁⟩ (hhalts | hrest)
    · -- stopped at a selector, where no comma is
      have hhalts : c₁.AtSelector := hhalts
      refine .step fun a => ?_
      dsimp only
      rw [hhalts.comma_none]
      exact .pure (.inl hhalts)
    · -- read up to the comma, behind which the list goes on
      have hrest : c₁ = (k.behind vs).push t := hrest
      subst hrest
      obtain ⟨_, hx, _, rfl, hlt, rfl⟩ := acceptSymbol_push (c := k.behind vs) ht
      refine .step fun a => ?_
      dsimp only
      rw [hx]
      show Ensures (indices s a t.position (k.behind vs) >>= _) _
      refine .bind (indices_halts a _ hus rfl hk hcomma) ?_
      rintro ⟨b, c₂, h₂⟩ hhalts
      exact .pure hhalts
termination_by 16 * c.size + 12

end

end

end MiniPascal
