import MiniPascal.Grammar.Statement
import MiniPascal.Proofs.Checked.Syntax
import MiniPascal.Proofs.Printing.Token

/-! The tokens of expressions, with parentheses only where an operator binds less tightly than its
place needs. -/

namespace MiniPascal

open Grammar Token Recoding

namespace BinOp

/-- The level of the operator. -/
def precedence : BinOp → Precedence
  | equal | notEqual | less | lessEqual | greater | greaterEqual => .relational
  | add | sub | or => .additive
  | mul | divide | div | mod | and => .multiplicative

def token : BinOp → Token
  | add => ofSymbol .plus | sub => ofSymbol .minus | mul => ofSymbol .times
  | divide => ofSymbol .slash | div => ofKeyword .kwDiv | mod => ofKeyword .kwMod
  | and => ofKeyword .kwAnd | or => ofKeyword .kwOr | equal => ofSymbol .equal
  | notEqual => ofSymbol .notEqual | less => ofSymbol .less | lessEqual => ofSymbol .lessEqual
  | greater => ofSymbol .greater | greaterEqual => ofSymbol .greaterEqual

theorem operator?_token (op : BinOp) : op.precedence.operator? op.token.kind = some op := by
  cases op <;> rfl

theorem operator?_token_ne {op : BinOp} {p : Precedence} (h : p ≠ op.precedence) :
    p.operator? op.token.kind = none := by
  cases op <;> cases p <;> first | rfl | exact absurd rfl h

theorem token_printable (op : BinOp) : op.token.Printable := by
  cases op <;> first | exact ofSymbol_printable _ | exact ofKeyword_printable _

end BinOp

namespace UnaryOp

def token : UnaryOp → Token
  | plus => ofSymbol .plus
  | minus => ofSymbol .minus
  | not => ofKeyword .kwNot

theorem unaryOperator?_token (op : UnaryOp) : unaryOperator? op.token.kind = some op := by
  cases op <;> rfl

theorem token_printable (op : UnaryOp) : op.token.Printable := by
  cases op <;> first | exact ofSymbol_printable _ | exact ofKeyword_printable _

end UnaryOp

/-- Tokens in parentheses. -/
def Token.group (ts : List Token) : List Token :=
  ofSymbol .openParen :: ts ++ [ofSymbol .closeParen]

/-- Tokens, in parentheses where these are needed. -/
def Token.groupIf (needed : Bool) (ts : List Token) : List Token :=
  if needed then group ts else ts

namespace Expr

/-- How loosely the outermost operator binds; all but binary operators bind tightest. -/
def height : Expr → Nat
  | binary _ _ op _ _ => op.precedence.height
  | _ => 0

mutual

/-- The tokens of an expression. -/
def tokens (bare : Name → Bool) : Expr → List Token
  | int _ v => [ofNat v.toNat]
  | double _ x => [⟨.start, .double, x.describe, .fraction x⟩]
  | bool _ b => [ofKeyword (if b then .kwTrue else .kwFalse)]
  | var _ _ n _ => [ofName n]
  | unary _ _ op e => op.token :: groupIf (0 < e.height) (tokens bare e)
  | binary _ _ op l r =>
    groupIf (op.precedence.height < l.height) (tokens bare l) ++
      op.token :: groupIf (op.precedence.height ≤ r.height) (tokens bare r)
  | call _ _ n _ args _ => ofName n :: callTokens bare n args
  | index _ _ a i =>
    tokens bare a ++ ofSymbol .openSquare :: tokens bare i ++ [ofSymbol .closeSquare]
  | field _ _ r n _ => tokens bare r ++ [ofSymbol .dot, ofName n]

/-- The tokens of the arguments of a call. -/
def callTokens (bare : Name → Bool) (n : Name) : List Expr → List Token
  | [] => if bare n then [] else group []
  | e :: es => group (tokens bare e ++ moreTokens bare es)

/-- The tokens of further expressions of a list. -/
def moreTokens (bare : Name → Bool) : List Expr → List Token
  | [] => []
  | e :: es => ofSymbol .comma :: tokens bare e ++ moreTokens bare es

end

/-- The variable that a designator starts with. -/
def root : Expr → Expr
  | index _ _ a _ => a.root
  | field _ _ r _ _ => r.root
  | e => e

/-- The tokens that select a part of a variable. -/
def path (bare : Name → Bool) : Expr → List Token
  | index _ _ a i =>
    path bare a ++ ofSymbol .openSquare :: tokens bare i ++ [ofSymbol .closeSquare]
  | field _ _ r n _ => path bare r ++ [ofSymbol .dot, ofName n]
  | _ => []

/-- Expressions that can be written where the scopes are visible: names stand for what is declared,
and operators, selectors and arguments obey the type rules. -/
inductive Writable (s : Scopes) : Expr → Prop
  | int {p : Position} {v : UInt64} (hv : v.toNat ≤ literalLimit) : Writable s (int p v)
  | bool {p : Position} {b : Bool} : Writable s (bool p b)
  | var {p q : Position} {t u : Ty} {n : Name} {st : Storage} (hn : n.IsIdentifier)
    (hs : s.lookup ⟨.start, n⟩ = .ok ⟨.var q u, st⟩) (ht : erasing.ty u = erasing.ty t) :
    Writable s (var p t n st)
  | unary {p : Position} {op : UnaryOp} {e : Expr} (he : Writable s e)
    (ht : op.accepts e.type = true) : Writable s (unary p e.type op e)
  | binary {p : Position} {op : BinOp} {t : Scalar} {l r : Expr} (hl : Writable s l)
    (hr : Writable s r) (ht : op.result? l.type r.type = some t) :
    Writable s (binary p (.scalar t) op l r)
  | call {p : Position} {t : Ty} {n : Name} {symbol : String} {args : List Expr}
    {params : List Ty} {r : Routine} (hn : n.IsIdentifier)
    (hs : s.lookupRoutine ⟨.start, n⟩ = .ok r) (hsymbol : r.symbol = symbol)
    (hr : r.returns.map erasing.ty = some (erasing.ty t))
    (ht : r.paramTypes.map erasing.ty = params.map erasing.ty) (ha : ∀ e ∈ args, Writable s e)
    (hp : Passable args params) : Writable s (call p t n symbol args params)
  | index {p : Position} {low high : Expr} {t : Ty} {a i : Expr} (ha : Writable s a)
    (hd : a.isDesignator = true) (ht : a.type = .array low high t) (hi : Writable s i)
    (hit : i.type = .integer) : Writable s (index p t a i)
  | field {p : Position} {t : Ty} {r : Expr} {n : Name} {slot : Nat} {fields : List (Name × Ty)}
    (hr : Writable s r) (hd : r.isDesignator = true) (hn : n.IsIdentifier)
    (ht : r.type = .record fields) (hf : Ty.findField n fields = some (slot, t)) :
    Writable s (field p t r n slot)

variable {s : Scopes} {bare : Name → Bool} {e : Expr} {es : List Expr}

/-- A designator starts with a variable that is declared. -/
theorem Writable.root (he : e.Writable s) (hd : e.isDesignator = true) :
    ∃ p q t u n st, e.root = Expr.var p t n st ∧ n.IsIdentifier ∧
      s.lookup ⟨.start, n⟩ = .ok ⟨.var q u, st⟩ ∧ erasing.ty u = erasing.ty t := by
  induction he with
  | int | bool | unary | binary | call => cases hd
  | var hn hs ht => exact ⟨_, _, _, _, _, _, rfl, hn, hs, ht⟩
  | index _ ha _ _ _ ih => exact ih ha
  | field _ hr _ _ _ ih => exact ih hr

/-- A designator is its variable and what selects a part of that. -/
theorem Writable.tokens_eq (he : e.Writable s) (hd : e.isDesignator = true) :
    e.tokens bare = e.root.tokens bare ++ e.path bare := by
  induction he with
  | int | bool | unary | binary | call => cases hd
  | var => simp [tokens, Expr.root, path]
  | index _ ha _ _ _ ih => simp [tokens, Expr.root, path, ih ha]
  | field _ hr _ _ _ ih => simp [tokens, Expr.root, path, ih hr]

/-! ### The tokens -/

theorem group_printable {ts : List Token} (h : ∀ t ∈ ts, t.Printable) :
    ∀ t ∈ group ts, t.Printable := by
  unfold group
  apply List.forall_mem_append.2 ⟨List.forall_mem_cons.2 ⟨ofSymbol_printable _, h⟩, ?_⟩
  exact List.forall_mem_singleton.2 (ofSymbol_printable _)

theorem groupIf_printable {needed : Bool} {ts : List Token} (h : ∀ t ∈ ts, t.Printable) :
    ∀ t ∈ groupIf needed ts, t.Printable := by
  cases needed with
  | true => exact group_printable h
  | false => exact h

theorem moreTokens_printable (h : ∀ e ∈ es, ∀ t ∈ e.tokens bare, t.Printable) :
    ∀ t ∈ moreTokens bare es, t.Printable := by
  induction es with
  | nil => exact List.forall_mem_nil _
  | cons e es ih =>
    obtain ⟨he, hes⟩ := List.forall_mem_cons.1 h
    rw [moreTokens]
    exact List.forall_mem_append.2
      ⟨List.forall_mem_cons.2 ⟨ofSymbol_printable _, he⟩, ih hes⟩

theorem callTokens_printable {n : Name} (h : ∀ e ∈ es, ∀ t ∈ e.tokens bare, t.Printable) :
    ∀ t ∈ callTokens bare n es, t.Printable := by
  cases es with
  | nil =>
    rw [callTokens]
    split
    · exact List.forall_mem_nil _
    · exact group_printable (List.forall_mem_nil _)
  | cons e es =>
    obtain ⟨he, hes⟩ := List.forall_mem_cons.1 h
    rw [callTokens]
    exact group_printable (List.forall_mem_append.2 ⟨he, moreTokens_printable hes⟩)

theorem Writable.printable (he : e.Writable s) : ∀ t ∈ e.tokens bare, t.Printable := by
  induction he with
  | int hv =>
    rename_i v
    have hlt : v.toNat < UInt64.size := UInt64.toNat_lt_size v
    rw [tokens]
    exact List.forall_mem_singleton.2 (ofNat_printable hlt)
  | bool =>
    rw [tokens]
    exact List.forall_mem_singleton.2 (ofKeyword_printable _)
  | var hn =>
    rw [tokens]
    exact List.forall_mem_singleton.2 (ofName_printable hn)
  | unary _ _ ih =>
    rw [tokens]
    exact List.forall_mem_cons.2 ⟨UnaryOp.token_printable _, groupIf_printable ih⟩
  | binary _ _ _ ihl ihr =>
    rw [tokens]
    apply List.forall_mem_append.2 ⟨groupIf_printable ihl, ?_⟩
    exact List.forall_mem_cons.2 ⟨BinOp.token_printable _, groupIf_printable ihr⟩
  | call hn _ _ _ _ _ _ ih =>
    rw [tokens]
    exact List.forall_mem_cons.2 ⟨ofName_printable hn, callTokens_printable ih⟩
  | index _ _ _ _ _ iha ihi =>
    rw [tokens]
    apply List.forall_mem_append.2 ⟨List.forall_mem_append.2 ⟨iha, ?_⟩, ?_⟩
    · exact List.forall_mem_cons.2 ⟨ofSymbol_printable _, ihi⟩
    · exact List.forall_mem_singleton.2 (ofSymbol_printable _)
  | field _ _ hn _ _ ih =>
    rw [tokens]
    apply List.forall_mem_append.2 ⟨ih, ?_⟩
    exact List.forall_mem_cons.2
      ⟨ofSymbol_printable _, List.forall_mem_singleton.2 (ofName_printable hn)⟩

variable (bare) in
/-- An expression does not start as a string does, nor does it close anything. -/
theorem Writable.head (he : e.Writable s) : ∃ t ts, e.tokens bare = t :: ts ∧
    t.kind ≠ .string ∧ t.kind ≠ .symbol .closeParen := by
  have hgroup : ∀ (needed : Bool) (ts us : List Token),
      (∃ t ts', ts = t :: ts' ∧ t.kind ≠ .string ∧ t.kind ≠ .symbol .closeParen) →
      ∃ t ts', groupIf needed ts ++ us = t :: ts' ∧ t.kind ≠ .string ∧
        t.kind ≠ .symbol .closeParen := by
    intro needed ts us hts
    obtain ⟨t, ts', rfl, hstring, hclose⟩ := hts
    cases needed with
    | true => exact ⟨_, _, rfl, nofun, nofun⟩
    | false => exact ⟨_, _, rfl, hstring, hclose⟩
  induction he with
  | int | var | call =>
    rw [tokens]
    exact ⟨_, _, rfl, nofun, nofun⟩
  | bool =>
    rename_i b
    rw [tokens]
    cases b <;> exact ⟨_, _, rfl, nofun, nofun⟩
  | unary =>
    rename_i op _ _ _ _
    rw [tokens]
    cases op <;> exact ⟨_, _, rfl, nofun, nofun⟩
  | binary _ _ _ ih =>
    rw [tokens]
    exact hgroup _ _ _ ih
  | index _ _ _ _ _ ih =>
    rw [tokens, List.append_assoc]
    exact hgroup false _ _ ih
  | field _ _ _ _ _ ih =>
    rw [tokens]
    exact hgroup false _ _ ih

end Expr

end MiniPascal
