import MiniPascal.Proofs.Printing.Expression
import MiniPascal.Proofs.Reading.Attached
import MiniPascal.Proofs.Recoding.Statement

/-! The tokens of a statement are read as the statement, unless an `if` that could take an `else`
stands right in front of one. -/

namespace MiniPascal

open Grammar Token Recoding Cursor Read

/-- The name of a statement that writes. -/
def writeName (newline : Bool) : Name := if newline then ⟨"writeln"⟩ else ⟨"write"⟩

namespace WriteArg

def tokens (bare : Name → Bool) : WriteArg → List Token
  | .value e => e.tokens bare
  | .text s => [ofString s]

/-- The tokens of further arguments. -/
def moreTokens (bare : Name → Bool) : List WriteArg → List Token
  | [] => []
  | a :: as => ofSymbol .comma :: a.tokens bare ++ moreTokens bare as

/-- The tokens of all arguments. -/
def listTokens (bare : Name → Bool) : List WriteArg → List Token
  | [] => []
  | a :: as => group (a.tokens bare ++ moreTokens bare as)

/-- Texts and expressions of scalar types that can be written. -/
inductive Writable (s : Scopes) : WriteArg → Prop
  | text {x : String} : Writable s (.text x)
  | value {e : Expr} (he : e.Writable s) (ht : e.type.scalar?.isSome = true) :
    Writable s (.value e)

end WriteArg

namespace Stmt

mutual

/-- The tokens of a statement. Only blocks have `begin` and `end`, but for the body of a loop that
has brackets of its own. -/
def tokens (bare : Name → Bool) : Stmt → List Token
  | block ss => ofKeyword .kwBegin :: listTokens bare ss ++ [ofKeyword .kwEnd]
  | ifElse c yes none =>
    ofKeyword .kwIf :: c.tokens bare ++ ofKeyword .kwThen :: tokens bare yes
  | ifElse c yes (some no) =>
    ofKeyword .kwIf :: c.tokens bare ++ ofKeyword .kwThen :: tokens bare yes ++
      ofKeyword .kwElse :: tokens bare no
  | forTo _ target first bound body =>
    ofKeyword .kwFor :: target.tokens bare ++ ofSymbol .assign :: first.tokens bare ++
      ofKeyword .kwTo :: bound.tokens bare ++ ofKeyword .kwDo :: tokens bare body
  | .while c body => ofKeyword .kwWhile :: c.tokens bare ++ ofKeyword .kwDo :: tokens bare body
  | repeatUntil (block ss) c =>
    ofKeyword .kwRepeat :: listTokens bare ss ++ ofKeyword .kwUntil :: c.tokens bare
  | repeatUntil body c =>
    ofKeyword .kwRepeat :: tokens bare body ++ ofKeyword .kwUntil :: c.tokens bare
  | assign target e => target.tokens bare ++ ofSymbol .assign :: e.tokens bare
  | call n _ args _ _ => ofName n :: Expr.callTokens bare n args
  | write newline args => ofName (writeName newline) :: WriteArg.listTokens bare args
  | transition kind _ => [ofKeyword (transitionKeyword kind)]

/-- The tokens of statements with semicolons between them. -/
def listTokens (bare : Name → Bool) : List Stmt → List Token
  | [] => []
  | s :: ss => tokens bare s ++ moreTokens bare ss

/-- The tokens of further statements of a list. -/
def moreTokens (bare : Name → Bool) : List Stmt → List Token
  | [] => []
  | s :: ss => ofSymbol .semicolon :: tokens bare s ++ moreTokens bare ss

end

/-- Statements that can be written where the scopes are visible; the flag tells whether a loop is
around. The name of a call is not taken for that of a statement that writes, and the name of such a
statement stands for nothing else. -/
inductive Writable (s : Scopes) : Bool → Stmt → Prop
  | block {b : Bool} {ss : List Stmt} (hs : ∀ t ∈ ss, Writable s b t) : Writable s b (block ss)
  | ifThen {b : Bool} {c : Expr} {yes : Stmt} (hc : c.Writable s) (ht : c.type = .boolean)
    (hy : Writable s b yes) : Writable s b (ifElse c yes none)
  | ifElse {b : Bool} {c : Expr} {yes no : Stmt} (hc : c.Writable s) (ht : c.type = .boolean)
    (hy : Writable s b yes) (hn : Writable s b no) : Writable s b (ifElse c yes (some no))
  | forTo {b : Bool} {p : Position} {target first bound : Expr} {body : Stmt}
    (ht : target.Writable s) (hd : target.isDesignator = true) (htt : target.type = .integer)
    (hf : first.Writable s) (hft : first.type = .integer) (hb : bound.Writable s)
    (hbt : bound.type = .integer) (hs : Writable s true body) :
    Writable s b (forTo p target first bound body)
  | while {b : Bool} {c : Expr} {body : Stmt} (hc : c.Writable s) (ht : c.type = .boolean)
    (hs : Writable s true body) : Writable s b (.while c body)
  | repeatUntil {b : Bool} {c : Expr} {ss : List Stmt} (hs : ∀ t ∈ ss, Writable s true t)
    (hc : c.Writable s) (ht : c.type = .boolean) : Writable s b (repeatUntil (.block ss) c)
  | assign {b : Bool} {target e : Expr} (ht : target.Writable s) (hd : target.isDesignator = true)
    (he : e.Writable s) (ha : Typing.assignable target.type e.type = true) :
    Writable s b (assign target e)
  | call {b : Bool} {n : Name} {symbol : String} {args : List Expr} {params : List Ty}
    {returns : Option Ty} {r : Routine} (hn : n.IsIdentifier)
    (hs : s.lookupRoutine ⟨.start, n⟩ = .ok r) (hsymbol : r.symbol = symbol)
    (hr : r.returns.map erasing.ty = returns.map erasing.ty)
    (ht : r.paramTypes.map erasing.ty = params.map erasing.ty)
    (hfree : (∃ d, s.lookup ⟨.start, n⟩ = .ok d) ∨ writes? n = none)
    (ha : ∀ e ∈ args, e.Writable s) (hp : Passable args params) :
    Writable s b (call n symbol args params returns)
  | write {b newline : Bool} {args : List WriteArg} {e : Located SemanticError}
    (hn : s.lookup ⟨.start, writeName newline⟩ = .error e) (ha : ∀ a ∈ args, a.Writable s) :
    Writable s b (write newline args)
  | transition {kind : Transition} {p : Position} : Writable s true (transition kind p)

end Stmt

variable {s : Scopes} {bare : Name → Bool} {c d : Cursor} {e : Expr}

/-! ### Designators, writing and calls -/

/-- A designator in front of an assignment starts with the name of a variable, and behind that name
it is read as the place to assign to. -/
theorem Expr.Writable.designator (hbare : ∀ n, bare n = true → IsRoutine s n) (he : e.Writable s)
    (hd : e.isDesignator = true) :
    ∃ n t st, e.tokens bare = ofName n :: e.path bare ∧
      (erasing.scopes s).lookup ⟨.start, n⟩ = .ok ⟨.var .start t, st⟩ ∧
      ∀ d : Cursor, Succeeds
        (designator (erasing.scopes s) ⟨.start, n⟩
          ((d.push (ofSymbol .assign)).behind (e.path bare)))
        (·.Is (erasing.expr e) (d.push (ofSymbol .assign))) := by
  obtain ⟨p, q, t, u, n, st, hroot, hn, hs, ht⟩ := he.root hd
  have hlookup := lookup_erasing hs ht
  refine ⟨n, erasing.ty t, st, ?_, hlookup, ?_⟩
  · rw [he.tokens_eq hd, hroot, Expr.tokens]
    rfl
  · intro d
    have hread := (he.reads hbare).selectors hd (erasing.expr e) (d.push (ofSymbol .assign)) _
      (selectors_none (kind_symbol_ne (by decide)) (kind_symbol_ne (by decide)))
    rw [hroot, Recoding.expr, name_erasing] at hread
    unfold Grammar.designator
    apply Succeeds.check hlookup
    exact hread

namespace WriteArg

variable {a : WriteArg} {as : List WriteArg}

variable (bare) in
/-- What is written does not start with a closing parenthesis. -/
theorem Writable.head (ha : a.Writable s) : ∃ t ts, a.tokens bare = t :: ts ∧
    t.kind ≠ .symbol .closeParen := by
  cases ha with
  | text => exact ⟨_, _, rfl, nofun⟩
  | value he =>
    obtain ⟨t, ts, htokens, -, hclose⟩ := he.head bare
    exact ⟨t, ts, htokens, hclose⟩

section

variable (hbare : ∀ n, bare n = true → Expr.IsRoutine s n)
include hbare

theorem Writable.reads (ha : a.Writable s) (hd : d.current.kind.Closes 3) :
    Succeeds (writeArg (erasing.scopes s) (d.behind (a.tokens bare)))
      (·.Is (erasing.writeArg a) d) := by
  unfold Grammar.writeArg
  cases ha with
  | text =>
    rename_i x
    have hkind : (d.behind (tokens bare (.text x))).current.kind = .string := rfl
    rw [if_pos hkind]
    apply Succeeds.bind (expect_push (ofString_printable x).endOfFile)
    rintro _ ⟨h₁, rfl⟩
    exact .pure ⟨_, rfl⟩
  | value he ht =>
    rename_i e
    have hkind : (d.behind (tokens bare (.value e))).current.kind ≠ .string := by
      obtain ⟨t, ts, htokens, hne, -⟩ := he.head bare
      rw [tokens, htokens]
      exact hne
    have hscalar : (erasing.expr e).type.scalar?.isSome = true := by
      rwa [type_expr, scalar?_ty]
    rw [if_neg hkind]
    apply Succeeds.bind ((he.reads hbare).expression hd)
    rintro _ ⟨h₁, rfl⟩
    simp only [hscalar, if_true]
    exact .pure ⟨_, rfl⟩

theorem reads_writeArgs (ha : a.Writable s) (has : ∀ a ∈ as, a.Writable s)
    (hd : d.current.kind.Closes 3) (hcomma : d.current.kind ≠ .symbol .comma) :
    Succeeds (writeArgs (erasing.scopes s) (d.behind (a.tokens bare ++ moreTokens bare as)))
      (·.Is ((a :: as).map erasing.writeArg) d) := by
  induction as generalizing a with
  | nil =>
    rw [moreTokens, List.append_nil]
    unfold Grammar.writeArgs
    apply Succeeds.bind (ha.reads hbare hd)
    rintro _ ⟨h₁, rfl⟩
    apply Succeeds.step (acceptSymbol_none hcomma)
    exact .pure ⟨_, rfl⟩
  | cons u us ih =>
    obtain ⟨hu, hus⟩ := List.forall_mem_cons.1 has
    rw [moreTokens, List.cons_append, behind_append, behind_cons]
    unfold Grammar.writeArgs
    apply Succeeds.bind (ha.reads hbare (closes_of_isCloser rfl))
    rintro _ ⟨h₁, rfl⟩
    apply Succeeds.bind (acceptSymbol_push rfl)
    rintro _ ⟨_, rfl, h₂, rfl⟩
    apply Succeeds.bind (ih hu hus)
    rintro _ ⟨h₃, rfl⟩
    exact .pure ⟨_, rfl⟩

theorem reads_write {newline : Bool} (has : ∀ a ∈ as, a.Writable s)
    (hd : d.current.kind ≠ .symbol .openParen) :
    Succeeds (writeStatement (erasing.scopes s) newline (d.behind (listTokens bare as)))
      (·.Is (erasing.stmt (.write newline as)) d) := by
  have hclose : (d.push (ofSymbol .closeParen)).current.kind.Closes 3 := closes_of_isCloser rfl
  have hcomma : (d.push (ofSymbol .closeParen)).current.kind ≠ .symbol .comma :=
    kind_symbol_ne (by decide)
  unfold Grammar.writeStatement
  cases as with
  | nil =>
    apply Succeeds.step (acceptSymbol_none hd)
    exact .pure ⟨_, rfl⟩
  | cons a as =>
    obtain ⟨ha, hmore⟩ := List.forall_mem_cons.1 has
    -- no argument starts with the parenthesis that ends the list
    have hopen : ((d.push (ofSymbol .closeParen)).behind
        (a.tokens bare ++ moreTokens bare as)).sees .closeParen = false := by
      obtain ⟨t, ts, htokens, hne⟩ := ha.head bare
      apply sees_of_ne
      rw [htokens]
      exact hne
    rw [listTokens, behind_group]
    apply Succeeds.bind (acceptSymbol_push rfl)
    rintro _ ⟨_, rfl, h₁, rfl⟩
    simp only [hopen, Bool.false_eq_true, if_false]
    apply Succeeds.bind (reads_writeArgs hbare ha hmore hclose hcomma)
    rintro _ ⟨h₂, rfl⟩
    apply Succeeds.bind (symbol_push rfl)
    rintro _ ⟨h₃, rfl⟩
    exact .pure ⟨_, rfl⟩

end

theorem listTokens_printable (has : ∀ a ∈ as, a.Writable s) :
    ∀ t ∈ listTokens bare as, t.Printable := by
  have hone : ∀ a ∈ as, ∀ t ∈ a.tokens bare, t.Printable := by
    intro a ha
    cases has a ha with
    | text => exact List.forall_mem_singleton.2 (ofString_printable _)
    | value he => exact he.printable
  have hmore : ∀ as : List WriteArg, (∀ a ∈ as, ∀ t ∈ a.tokens bare, t.Printable) →
      ∀ t ∈ moreTokens bare as, t.Printable := by
    intro as
    induction as with
    | nil => exact fun _ => List.forall_mem_nil _
    | cons a as ih =>
      intro h
      obtain ⟨ha, has⟩ := List.forall_mem_cons.1 h
      exact List.forall_mem_cons.2
        ⟨ofSymbol_printable _, List.forall_mem_append.2 ⟨ha, ih has⟩⟩
  cases as with
  | nil => exact List.forall_mem_nil _
  | cons a as =>
    obtain ⟨ha, has⟩ := List.forall_mem_cons.1 hone
    exact Expr.group_printable (List.forall_mem_append.2 ⟨ha, hmore as has⟩)

end WriteArg

/-! ### Statements -/

namespace Stmt

variable {b : Bool} {st : Stmt} {ss : List Stmt}

/-- How the tokens of a statement are read where all positions are erased. -/
def Reads (s : Scopes) (bare : Name → Bool) (b : Bool) (st : Stmt) : Prop :=
  ∀ d : Cursor, d.current.kind.Closes 3 →
    (st.endsOpen = true → d.current.kind ≠ .keyword .kwElse) →
    Succeeds (statement (erasing.scopes s) b (d.behind (st.tokens bare)))
      (·.Is (some (erasing.stmt st)) d)

theorem reads_transition {kind : Transition} {p : Position} :
    (transition kind p).Reads s bare true := by
  intro d _ _
  rw [tokens]
  unfold statement
  have haccept : transition? (ofKeyword (transitionKeyword kind)).kind = some kind := by
    cases kind <;> rfl
  cases kind with
  | breakLoop =>
    apply Succeeds.bind (accept_push rfl haccept)
    rintro _ ⟨_, rfl, h₁, rfl⟩
    exact .pure ⟨_, rfl⟩
  | continueLoop =>
    apply Succeeds.bind (accept_push rfl haccept)
    rintro _ ⟨_, rfl, h₁, rfl⟩
    exact .pure ⟨_, rfl⟩

/-- Where a statement is expected it is the body. -/
theorem Reads.body (h : st.Reads s bare b) (hd : d.current.kind.Closes 3)
    (helse : st.endsOpen = true → d.current.kind ≠ .keyword .kwElse) :
    Succeeds (body (erasing.scopes s) b (d.behind (st.tokens bare)))
      (·.Is (erasing.stmt st) d) := by
  unfold Grammar.body
  apply Succeeds.bind (h d hd helse)
  rintro _ ⟨h₁, rfl⟩
  exact .pure ⟨_, rfl⟩

/-- The end of a list of statements. -/
def IsEnd (k : Kind) : Prop := k = .keyword .kwEnd ∨ k = .keyword .kwUntil

/-- The empty statement in front of the end of a list. -/
theorem reads_none (hd : IsEnd d.current.kind) :
    Succeeds (statement (erasing.scopes s) b d) (·.Is none d) := by
  unfold statement
  rcases hd with hd | hd
  · simp only [hd]
    apply Succeeds.step (accept_none (by rw [hd]; rfl))
    exact .pure ⟨_, rfl⟩
  · simp only [hd]
    apply Succeeds.step (accept_none (by rw [hd]; rfl))
    exact .pure ⟨_, rfl⟩

/-- Statements with semicolons between them, up to what ends them. -/
theorem reads_statements (hs : ∀ st ∈ ss, st.Reads s bare b) (hd : IsEnd d.current.kind) :
    Succeeds (statements (erasing.scopes s) b (d.behind (listTokens bare ss)))
      (·.Is (ss.map erasing.stmt) d) := by
  have hclose : d.current.kind.Closes 3 := by
    rcases hd with hd | hd <;> (rw [hd]; exact closes_of_isCloser rfl)
  have helse : d.current.kind ≠ .keyword .kwElse := by
    rcases hd with hd | hd <;> (rw [hd]; decide)
  have hsemicolon : d.current.kind ≠ .symbol .semicolon := by
    rcases hd with hd | hd <;> (rw [hd]; decide)
  -- where a statement has been read, further ones follow or the list ends
  have hmore : ∀ (us : List Stmt) (u : Stmt), (∀ st ∈ u :: us, st.Reads s bare b) →
      Succeeds (statements (erasing.scopes s) b (d.behind (u.tokens bare ++ moreTokens bare us)))
        (·.Is ((u :: us).map erasing.stmt) d) := by
    intro us
    induction us with
    | nil =>
      intro u hu
      rw [moreTokens, List.append_nil]
      unfold statements
      apply Succeeds.bind (hu u List.mem_cons_self d hclose fun _ => helse)
      rintro _ ⟨h₁, rfl⟩
      apply Succeeds.step (acceptSymbol_none hsemicolon)
      exact .pure ⟨_, rfl⟩
    | cons v us ih =>
      intro u hu
      obtain ⟨hfirst, hrest⟩ := List.forall_mem_cons.1 hu
      have hnext := hfirst
        ((d.behind (v.tokens bare ++ moreTokens bare us)).push (ofSymbol .semicolon))
        (closes_of_isCloser rfl) fun _ h => by cases h
      rw [moreTokens, List.cons_append, behind_append, behind_cons]
      unfold statements
      apply Succeeds.bind hnext
      rintro _ ⟨h₁, rfl⟩
      apply Succeeds.bind (acceptSymbol_push rfl)
      rintro _ ⟨_, rfl, h₂, rfl⟩
      apply Succeeds.bind (ih v hrest)
      rintro _ ⟨h₃, rfl⟩
      exact .pure ⟨_, rfl⟩
  cases ss with
  | cons u us => exact hmore us u hs
  | nil =>
    rw [listTokens, behind_nil]
    unfold statements
    apply Succeeds.bind (reads_none hd)
    rintro _ ⟨h₁, rfl⟩
    apply Succeeds.step (acceptSymbol_none hsemicolon)
    exact .pure ⟨_, rfl⟩

theorem reads_block (hs : ∀ st ∈ ss, st.Reads s bare b) : (block ss).Reads s bare b := by
  intro d _ _
  have hend : IsEnd (d.push (ofKeyword .kwEnd)).current.kind := .inl rfl
  have hcompound : Succeeds
      (compound (erasing.scopes s) b
        (((d.push (ofKeyword .kwEnd)).behind (listTokens bare ss)).push (ofKeyword .kwBegin)))
      (·.Is (ss.map erasing.stmt) d) := by
    unfold compound
    apply Succeeds.bind (keyword_push rfl)
    rintro _ ⟨h₁, rfl⟩
    apply Succeeds.bind (reads_statements hs hend)
    rintro _ ⟨h₂, rfl⟩
    apply Succeeds.bind (keyword_push rfl)
    rintro _ ⟨h₃, rfl⟩
    exact .pure ⟨_, rfl⟩
  rw [tokens, List.cons_append, behind_cons, behind_append, stmt_block]
  unfold statement
  apply Succeeds.bind hcompound
  rintro _ ⟨h₁, rfl⟩
  exact .pure ⟨_, rfl⟩

section

variable (hbare : ∀ n, bare n = true → Expr.IsRoutine s n)
include hbare

theorem reads_assign {target : Expr} (ht : target.Writable s)
    (hd : target.isDesignator = true) (he : e.Writable s)
    (ha : Typing.assignable target.type e.type = true) : (assign target e).Reads s bare b := by
  intro d hclose _
  obtain ⟨n, t, st, htokens, hlookup, hdesignator⟩ := ht.designator hbare hd
  have hassign : Typing.checkAssignable (erasing.expr target).type (erasing.expr e)
      "in assignment" = .ok () := by
    rw [type_expr, checkAssignable_expr, Typing.checkAssignable, if_pos ha]
    rfl
  have hnamed : Succeeds
      (namedStatement (erasing.scopes s) ⟨.start, n⟩
        (((d.behind (e.tokens bare)).push (ofSymbol .assign)).behind (target.path bare)))
      (·.Is (erasing.stmt (assign target e)) d) := by
    -- without a parenthesis behind its name, the statement is no call
    have hsees : (((d.behind (e.tokens bare)).push (ofSymbol .assign)).behind
        (target.path bare)).sees .openParen = false :=
      sees_of_ne (Expr.path_head (kind_symbol_ne (by decide)))
    unfold namedStatement
    simp only [hlookup, hsees]
    unfold assignment
    apply Succeeds.bind (hdesignator _)
    rintro _ ⟨h₁, rfl⟩
    apply Succeeds.bind (accept_push (a := none) rfl rfl)
    rintro _ ⟨_, rfl, h₂, rfl⟩
    apply Succeeds.bind ((he.reads hbare).expression hclose)
    rintro _ ⟨h₃, rfl⟩
    apply Succeeds.step (a := erasing.expr e) rfl
    apply Succeeds.check hassign
    exact .pure ⟨_, rfl⟩
  rw [tokens, htokens, List.cons_append, behind_cons, behind_append, behind_cons]
  unfold statement
  apply Succeeds.bind (identifier_push rfl)
  rintro _ ⟨h₁, rfl⟩
  apply Succeeds.bind hnamed
  rintro _ ⟨h₂, rfl⟩
  exact .pure ⟨_, rfl⟩

theorem reads_write {newline : Bool} {as : List WriteArg} {f : Located SemanticError}
    (hn : s.lookup ⟨.start, writeName newline⟩ = .error f) (ha : ∀ a ∈ as, a.Writable s) :
    (write newline as).Reads s bare b := by
  intro d hclose _
  have hlookup : (erasing.scopes s).lookup ⟨.start, writeName newline⟩ =
      .error (erasing.located erasing.semanticError f) := by
    rw [Expr.lookup_recoded, hn]
    rfl
  have hwrites : writes? (writeName newline) = some newline := by
    cases newline <;> decide
  rw [tokens, behind_cons]
  unfold statement
  apply Succeeds.bind (identifier_push rfl)
  rintro _ ⟨h₁, rfl⟩
  have hnamed : Succeeds
      (namedStatement (erasing.scopes s) ⟨.start, writeName newline⟩
        (d.behind (WriteArg.listTokens bare as)))
      (·.Is (erasing.stmt (write newline as)) d) := by
    unfold namedStatement
    simp only [hlookup, hwrites]
    exact WriteArg.reads_write hbare ha hclose.openParen
  apply Succeeds.bind hnamed
  rintro _ ⟨h₂, rfl⟩
  exact .pure ⟨_, rfl⟩

/-- What follows the name of a routine, which is in scope with these parameters. -/
theorem reads_callStatement {n : Name} {args : List Expr} {params : List Ty}
    {returns : Option Ty} {r : Routine} (hs : s.lookupRoutine ⟨.start, n⟩ = .ok r)
    (hr : r.returns.map erasing.ty = returns.map erasing.ty)
    (ht : r.paramTypes.map erasing.ty = params.map erasing.ty)
    (ha : ∀ e ∈ args, e.Writable s) (hp : Passable args params)
    (hd : d.current.kind ≠ .symbol .openParen) :
    Succeeds
      (callStatement (erasing.scopes s) ⟨.start, n⟩ (d.behind (Expr.callTokens bare n args)))
      (·.Is (erasing.stmt (call n r.symbol args params returns)) d) := by
  have hparams : (erasing.routine r).paramTypes = params.map erasing.ty := by
    rw [paramTypes_routine, ht]
  have hstmt : erasing.stmt (call n r.symbol args params returns) =
      .call n r.symbol (args.map erasing.expr) (params.map erasing.ty)
        (returns.map erasing.ty) := by
    rw [Recoding.stmt, exprs_eq_map, tys_eq_map, name_erasing]
  unfold callStatement
  apply Succeeds.check (Expr.lookupRoutine_erasing hs)
  simp only [hparams, symbol_routine, returns_routine, hr]
  apply Succeeds.bind (Expr.reads_arguments ha (fun e he => (ha e he).reads hbare) hp hd)
  rintro _ ⟨h₁, rfl⟩
  rw [hstmt]
  exact .pure ⟨_, rfl⟩

theorem reads_call {n : Name} {args : List Expr} {params : List Ty} {returns : Option Ty}
    {r : Routine} (hs : s.lookupRoutine ⟨.start, n⟩ = .ok r)
    (hr : r.returns.map erasing.ty = returns.map erasing.ty)
    (ht : r.paramTypes.map erasing.ty = params.map erasing.ty)
    (hfree : (∃ d, s.lookup ⟨.start, n⟩ = .ok d) ∨ writes? n = none)
    (ha : ∀ e ∈ args, e.Writable s) (hp : Passable args params) :
    (call n r.symbol args params returns).Reads s bare b := by
  intro d hclose _
  have hcall := reads_callStatement hbare hs hr ht ha hp hclose.openParen
  have hnamed : Succeeds
      (namedStatement (erasing.scopes s) ⟨.start, n⟩ (d.behind (Expr.callTokens bare n args)))
      (·.Is (erasing.stmt (call n r.symbol args params returns)) d) := by
    -- where the name alone is no call, there are parentheses
    have hsees : ¬ Expr.IsRoutine s n →
        (d.behind (Expr.callTokens bare n args)).sees .openParen = true := by
      intro hnot
      rcases Expr.callTokens_cases bare n args with ⟨hn, -, -⟩ | ⟨ts, htokens⟩
      · exact absurd (hbare n hn) hnot
      · rw [htokens, behind_group]
        exact sees_push rfl
    unfold namedStatement
    rw [Expr.lookup_recoded]
    cases hlookup : s.lookup ⟨.start, n⟩ with
    | error f =>
      have hnone : writes? n = none := by
        apply hfree.resolve_left
        rintro ⟨found, hfound⟩
        rw [hlookup] at hfound
        cases hfound
      have hopen := hsees (by simp [Expr.IsRoutine, hlookup])
      simp only [Recoding.checked, hnone, hopen]
      exact hcall
    | ok found =>
      obtain ⟨declared, st⟩ := found
      cases declared with
      | routine q =>
        simp only [Recoding.checked, resolved, declaration]
        exact hcall
      | _ =>
        have hopen := hsees (by simp [Expr.IsRoutine, hlookup])
        simp only [Recoding.checked, resolved, declaration, hopen]
        exact hcall
  rw [tokens, behind_cons]
  unfold statement
  apply Succeeds.bind (identifier_push rfl)
  rintro _ ⟨h₁, rfl⟩
  apply Succeeds.bind hnamed
  rintro _ ⟨h₂, rfl⟩
  exact .pure ⟨_, rfl⟩

/-- A condition, which is a truth value. -/
theorem reads_condition (he : e.Writable s) (ht : e.type = .boolean)
    (hd : d.current.kind.Closes 3) :
    Succeeds (condition (erasing.scopes s) (d.behind (e.tokens bare)))
      (·.Is (erasing.expr e) d) := by
  have hcheck : Typing.checkCondition (erasing.expr e) = .ok () := by
    rw [checkCondition_expr, Typing.checkCondition, ht]
    rfl
  unfold condition
  apply Succeeds.bind ((he.reads hbare).expression hd)
  rintro _ ⟨h₁, rfl⟩
  apply Succeeds.check hcheck
  exact .pure ⟨_, rfl⟩

/-- The first value or the bound of a counting loop, which is an integer. -/
theorem reads_loopLimit {context : String} (he : e.Writable s) (ht : e.type = .integer)
    (hd : d.current.kind.Closes 3) :
    Succeeds (loopLimit (erasing.scopes s) context (d.behind (e.tokens bare)))
      (·.Is (erasing.expr e) d) := by
  have hcheck : Typing.checkAssignable .integer (erasing.expr e) context = .ok () := by
    have hassignable : Typing.assignable .integer (erasing.expr e).type = true := by
      rw [type_expr, ht, ty_scalar]
      rfl
    rw [Typing.checkAssignable, if_pos hassignable]
  unfold loopLimit
  apply Succeeds.bind ((he.reads hbare).expression hd)
  rintro _ ⟨h₁, rfl⟩
  apply Succeeds.check hcheck
  exact .pure ⟨_, rfl⟩

theorem reads_loopHead {target first bound : Expr} (ht : target.Writable s)
    (hd : target.isDesignator = true) (htt : target.type = .integer) (hf : first.Writable s)
    (hft : first.type = .integer) (hb : bound.Writable s) (hbt : bound.type = .integer)
    (hclose : d.current.kind.Closes 3) :
    Succeeds
      (loopHead (erasing.scopes s)
        (d.behind (target.tokens bare ++ ofSymbol .assign :: first.tokens bare ++
          ofKeyword .kwTo :: bound.tokens bare)))
      (·.Is (erasing.expr target, erasing.expr first, erasing.expr bound) d) := by
  obtain ⟨n, t, st, htokens, -, hdesignator⟩ := ht.designator hbare hd
  have hinteger : (erasing.expr target).type.isInteger = true := by
    rw [type_expr, isInteger_ty, htt]
    rfl
  have hcounter : ∀ c : Cursor, Succeeds
      (loopCounter (erasing.scopes s)
        ((c.push (ofSymbol .assign)).behind (target.tokens bare)))
      (·.Is (erasing.expr target) (c.push (ofSymbol .assign))) := by
    intro c
    rw [htokens, behind_cons]
    unfold loopCounter
    apply Succeeds.bind (identifier_push rfl)
    rintro _ ⟨h₁, rfl⟩
    apply Succeeds.bind (hdesignator c)
    rintro _ ⟨h₂, rfl⟩
    simp only [hinteger, if_true]
    exact .pure ⟨_, rfl⟩
  rw [List.append_assoc, behind_append, List.cons_append, behind_cons, behind_append, behind_cons]
  unfold loopHead
  apply Succeeds.bind (hcounter _)
  rintro _ ⟨h₁, rfl⟩
  apply Succeeds.bind (symbol_push rfl)
  rintro _ ⟨h₂, rfl⟩
  apply Succeeds.bind (reads_loopLimit hbare hf hft (closes_of_isCloser rfl))
  rintro _ ⟨h₃, rfl⟩
  -- what stands between the limits is not `downto`, which is refused
  have hupward : ((d.behind (bound.tokens bare)).push (ofKeyword .kwTo)).seesKeyword .kwDownto =
      false := rfl
  simp only [hupward, Bool.false_eq_true, if_false]
  apply Succeeds.bind (keyword_push rfl)
  rintro _ ⟨h₄, rfl⟩
  apply Succeeds.bind (reads_loopLimit hbare hb hbt hclose)
  rintro _ ⟨h₅, rfl⟩
  exact .pure ⟨_, rfl⟩

theorem reads_for {p : Position} {target first bound : Expr} {body : Stmt}
    (ht : target.Writable s) (hd : target.isDesignator = true) (htt : target.type = .integer)
    (hf : first.Writable s) (hft : first.type = .integer) (hb : bound.Writable s)
    (hbt : bound.type = .integer) (hs : body.Reads s bare true) :
    (forTo p target first bound body).Reads s bare b := by
  intro d hclose helse
  have htokens : d.behind ((forTo p target first bound body).tokens bare) =
      (((d.behind (body.tokens bare)).push (ofKeyword .kwDo)).behind
        (target.tokens bare ++ ofSymbol .assign :: first.tokens bare ++
          ofKeyword .kwTo :: bound.tokens bare)).push (ofKeyword .kwFor) := by
    simp [tokens]
  rw [htokens]
  unfold statement
  apply Succeeds.bind (keyword_push rfl)
  rintro _ ⟨h₁, rfl⟩
  apply Succeeds.bind
    (reads_loopHead hbare ht hd htt hf hft hb hbt (closes_of_isCloser rfl))
  rintro _ ⟨h₂, rfl⟩
  apply Succeeds.bind (keyword_push rfl)
  rintro _ ⟨h₃, rfl⟩
  apply Succeeds.bind (hs.body hclose helse)
  rintro _ ⟨h₄, rfl⟩
  exact .pure ⟨_, rfl⟩

theorem reads_while {c : Expr} {body : Stmt} (hc : c.Writable s) (ht : c.type = .boolean)
    (hs : body.Reads s bare true) : (Stmt.while c body).Reads s bare b := by
  intro d hclose helse
  rw [tokens, List.cons_append, behind_cons, behind_append, behind_cons]
  unfold statement
  apply Succeeds.bind (keyword_push rfl)
  rintro _ ⟨h₁, rfl⟩
  apply Succeeds.bind (reads_condition hbare hc ht (closes_of_isCloser rfl))
  rintro _ ⟨h₂, rfl⟩
  apply Succeeds.bind (keyword_push rfl)
  rintro _ ⟨h₃, rfl⟩
  apply Succeeds.bind (hs.body hclose helse)
  rintro _ ⟨h₄, rfl⟩
  exact .pure ⟨_, rfl⟩

theorem reads_ifThen {c : Expr} {yes : Stmt} (hc : c.Writable s) (ht : c.type = .boolean)
    (hy : yes.Reads s bare b) : (ifElse c yes none).Reads s bare b := by
  intro d hclose helse
  have hnone : d.current.kind ≠ .keyword .kwElse := helse rfl
  rw [tokens, List.cons_append, behind_cons, behind_append, behind_cons]
  unfold statement
  apply Succeeds.bind (keyword_push rfl)
  rintro _ ⟨h₁, rfl⟩
  apply Succeeds.bind (reads_condition hbare hc ht (closes_of_isCloser rfl))
  rintro _ ⟨h₂, rfl⟩
  apply Succeeds.bind (keyword_push rfl)
  rintro _ ⟨h₃, rfl⟩
  apply Succeeds.bind (hy.body hclose fun _ => hnone)
  rintro _ ⟨h₄, rfl⟩
  apply Succeeds.step (acceptKeyword_none hnone)
  exact .pure ⟨_, rfl⟩

theorem reads_ifElse {c : Expr} {yes no : Stmt} (hc : c.Writable s) (ht : c.type = .boolean)
    (hy : yes.Reads s bare b) (hopen : yes.endsOpen = false) (hn : no.Reads s bare b) :
    (ifElse c yes (some no)).Reads s bare b := by
  intro d hclose helse
  have htokens : d.behind ((ifElse c yes (some no)).tokens bare) =
      (((((d.behind (no.tokens bare)).push (ofKeyword .kwElse)).behind (yes.tokens bare)).push
        (ofKeyword .kwThen)).behind (c.tokens bare)).push (ofKeyword .kwIf) := by
    simp [tokens]
  rw [htokens]
  unfold statement
  apply Succeeds.bind (keyword_push rfl)
  rintro _ ⟨h₁, rfl⟩
  apply Succeeds.bind (reads_condition hbare hc ht (closes_of_isCloser rfl))
  rintro _ ⟨h₂, rfl⟩
  apply Succeeds.bind (keyword_push rfl)
  rintro _ ⟨h₃, rfl⟩
  -- the branch is read up to the `else`, which nothing in it takes
  apply Succeeds.bind (hy.body (closes_of_isCloser rfl) (by simp [hopen]))
  rintro _ ⟨h₄, rfl⟩
  apply Succeeds.bind (acceptKeyword_push rfl)
  rintro _ ⟨_, rfl, h₅, rfl⟩
  apply Succeeds.bind (hn.body hclose helse)
  rintro _ ⟨h₆, rfl⟩
  exact .pure ⟨_, rfl⟩

theorem reads_repeat {c : Expr} (hs : ∀ st ∈ ss, st.Reads s bare true) (hc : c.Writable s)
    (ht : c.type = .boolean) : (repeatUntil (.block ss) c).Reads s bare b := by
  intro d hclose _
  have hend : IsEnd ((d.behind (c.tokens bare)).push (ofKeyword .kwUntil)).current.kind :=
    .inr rfl
  rw [tokens, List.cons_append, behind_cons, behind_append, behind_cons, Recoding.stmt,
    stmt_block]
  unfold statement
  apply Succeeds.bind (keyword_push rfl)
  rintro _ ⟨h₁, rfl⟩
  apply Succeeds.bind (reads_statements hs hend)
  rintro _ ⟨h₂, rfl⟩
  apply Succeeds.bind (keyword_push rfl)
  rintro _ ⟨h₃, rfl⟩
  apply Succeeds.bind (reads_condition hbare hc ht hclose)
  rintro _ ⟨h₄, rfl⟩
  exact .pure ⟨_, rfl⟩

/-- The tokens of every statement that can be written, and in which every `else` belongs to the
nearest `if`, are read as the statement. -/
theorem Writable.reads (h : st.Writable s b) (ha : st.Attached) : st.Reads s bare b := by
  induction h with
  | block _ ih =>
    cases ha with | block ha =>
    exact reads_block fun t ht => ih t ht (ha t ht)
  | ifThen hc ht _ ih =>
    cases ha with | ifThen ha =>
    exact reads_ifThen hbare hc ht (ih ha)
  | ifElse hc ht _ _ ihy ihn =>
    cases ha with | ifElse hay hopen han =>
    exact reads_ifElse hbare hc ht (ihy hay) hopen (ihn han)
  | forTo ht hd htt hf hft hb hbt _ ih =>
    cases ha with | forTo ha =>
    exact reads_for hbare ht hd htt hf hft hb hbt (ih ha)
  | «while» hc ht _ ih =>
    cases ha with | «while» ha =>
    exact reads_while hbare hc ht (ih ha)
  | repeatUntil _ hc ht ih =>
    cases ha with | repeatUntil ha =>
    cases ha with | block ha =>
    exact reads_repeat hbare (fun t h => ih t h (ha t h)) hc ht
  | assign ht hd he hassign => exact reads_assign hbare ht hd he hassign
  | call hn hs hsymbol hr ht hfree hargs hp =>
    subst hsymbol
    exact reads_call hbare hs hr ht hfree hargs hp
  | write hn hargs => exact reads_write hbare hn hargs
  | transition => exact reads_transition

end

/-! ### Texts -/

theorem writeName_isIdentifier (newline : Bool) : (writeName newline).IsIdentifier := by
  cases newline with
  | false => exact ⟨State.run_start (s := .word).1 (by decide), by decide⟩
  | true => exact ⟨State.run_start (s := .word).1 (by decide), by decide⟩

theorem listTokens_printable (h : ∀ st ∈ ss, ∀ t ∈ st.tokens bare, t.Printable) :
    ∀ t ∈ listTokens bare ss, t.Printable := by
  have hmore : ∀ ss : List Stmt, (∀ st ∈ ss, ∀ t ∈ st.tokens bare, t.Printable) →
      ∀ t ∈ moreTokens bare ss, t.Printable := by
    intro ss
    induction ss with
    | nil =>
      intro _
      rw [moreTokens]
      exact List.forall_mem_nil _
    | cons st ss ih =>
      intro h
      obtain ⟨hst, hss⟩ := List.forall_mem_cons.1 h
      rw [moreTokens]
      exact List.forall_mem_append.2
        ⟨List.forall_mem_cons.2 ⟨ofSymbol_printable _, hst⟩, ih hss⟩
  cases ss with
  | nil =>
    rw [listTokens]
    exact List.forall_mem_nil _
  | cons st ss =>
    obtain ⟨hst, hss⟩ := List.forall_mem_cons.1 h
    rw [listTokens]
    exact List.forall_mem_append.2 ⟨hst, hmore ss hss⟩

theorem keyword_cons_printable (k : Keyword) {ts : List Token} (h : ∀ t ∈ ts, t.Printable) :
    ∀ t ∈ ofKeyword k :: ts, t.Printable :=
  List.forall_mem_cons.2 ⟨ofKeyword_printable k, h⟩

theorem Writable.printable (h : st.Writable s b) : ∀ t ∈ st.tokens bare, t.Printable := by
  induction h with
  | block _ ih =>
    rw [tokens]
    apply List.forall_mem_append.2 ⟨keyword_cons_printable _ (listTokens_printable ih), ?_⟩
    exact List.forall_mem_singleton.2 (ofKeyword_printable _)
  | ifThen hc _ _ ih =>
    rw [tokens]
    exact List.forall_mem_append.2
      ⟨keyword_cons_printable _ hc.printable, keyword_cons_printable _ ih⟩
  | ifElse hc _ _ _ ihy ihn =>
    rw [tokens]
    refine List.forall_mem_append.2 ⟨List.forall_mem_append.2 ⟨?_, ?_⟩, ?_⟩
    · exact keyword_cons_printable _ hc.printable
    · exact keyword_cons_printable _ ihy
    · exact keyword_cons_printable _ ihn
  | forTo ht _ _ hf _ hb _ _ ih =>
    rw [tokens]
    refine List.forall_mem_append.2 ⟨List.forall_mem_append.2 ⟨List.forall_mem_append.2
      ⟨?_, ?_⟩, ?_⟩, ?_⟩
    · exact keyword_cons_printable _ ht.printable
    · exact List.forall_mem_cons.2 ⟨ofSymbol_printable _, hf.printable⟩
    · exact keyword_cons_printable _ hb.printable
    · exact keyword_cons_printable _ ih
  | «while» hc _ _ ih =>
    rw [tokens]
    exact List.forall_mem_append.2
      ⟨keyword_cons_printable _ hc.printable, keyword_cons_printable _ ih⟩
  | repeatUntil _ hc _ ih =>
    rw [tokens]
    exact List.forall_mem_append.2
      ⟨keyword_cons_printable _ (listTokens_printable ih), keyword_cons_printable _ hc.printable⟩
  | assign ht _ he _ =>
    rw [tokens]
    exact List.forall_mem_append.2
      ⟨ht.printable, List.forall_mem_cons.2 ⟨ofSymbol_printable _, he.printable⟩⟩
  | call hn _ _ _ _ _ ha _ =>
    rw [tokens]
    exact List.forall_mem_cons.2
      ⟨ofName_printable hn, Expr.callTokens_printable fun e he => (ha e he).printable⟩
  | write _ ha =>
    rw [tokens]
    exact List.forall_mem_cons.2
      ⟨ofName_printable (writeName_isIdentifier _), WriteArg.listTokens_printable ha⟩
  | transition =>
    rw [tokens]
    exact List.forall_mem_singleton.2 (ofKeyword_printable _)

theorem Writable.tokens_ne_nil (h : st.Writable s b) : st.tokens bare ≠ [] := by
  cases h with
  | assign ht =>
    obtain ⟨t, ts, htokens, -, -⟩ := ht.head bare
    rw [tokens, htokens]
    exact List.cons_ne_nil t _
  | _ =>
    rw [tokens]
    exact List.cons_ne_nil _ _

/-- What is read where all positions are erased is read, with positions, where they are not. -/
theorem statement_of_erasing
    (h : Succeeds (statement (erasing.scopes s) b (erasing.cursor c))
      (·.Is (some (erasing.stmt st)) (erasing.cursor d))) :
    ∃ t, statement s b c = .ok t ∧ t.value.map erasing.stmt = some (erasing.stmt st) ∧
      erasing.cursor t.rest = erasing.cursor d := by
  obtain ⟨_, hread, hle, rfl⟩ := h
  obtain ⟨t, ht, hsame⟩ := (erasing.statement_cursor s b c).exists_of_ok hread
  exact ⟨t, ht, congrArg Passed.value hsame, congrArg Passed.rest hsame⟩

/-- Reading inverts printing: in front of anything that ends an expression, but of no `else` that
would belong to an `if` in it, the text of a statement in which every `else` belongs to the nearest
`if` is read as this statement but for the positions, and what follows it is left. And in all
statements that are read every `else` belongs to the nearest `if`. -/
theorem statement_printed :
    (∀ (s : Scopes) (bare : Name → Bool) (b : Bool) (st : Stmt) (p stop : Position)
      (more : List Char) (d : Cursor), (∀ n, bare n = true → Expr.IsRoutine s n) →
      st.Writable s b → st.Attached → (∀ c ∈ more.head?, isBlank c = true) →
      onText (p.afterAll (printed (st.tokens bare)).toList) more stop = .ok d →
      d.current.kind.Closes 3 → (st.endsOpen = true → d.current.kind ≠ .keyword .kwElse) →
      ∃ c t, onText p ((printed (st.tokens bare)).toList ++ more) stop = .ok c ∧
        statement s b c = .ok t ∧ t.value.map erasing.stmt = some (erasing.stmt st) ∧
        erasing.cursor t.rest = erasing.cursor d) ∧
    ∀ {text name : String} {p : Program}, Program.ofText text name = .ok p →
      (∀ st ∈ p.statements, st.Attached) ∧
      ∀ r ∈ p.routines, ∀ body ∈ r.2.body, ∀ st ∈ body.statements, st.Attached := by
  constructor
  · intro s bare b st p stop more d hbare hst hattached hmore hd hclose helse
    obtain ⟨c, hc, hcursor⟩ := onText_printed hst.tokens_ne_nil hst.printable hmore hd
    have hread := hst.reads hbare hattached (erasing.cursor d) hclose helse
    rw [← hcursor] at hread
    obtain ⟨t, ht, hvalue, hrest⟩ := statement_of_erasing hread
    exact ⟨c, t, hc, ht, hvalue, hrest⟩
  · intro text name p hp
    have hmeets := Program.ofText_attached hp
    refine ⟨hmeets.statements, ?_⟩
    intro r hr
    cases hmeets.routine hr with
    | routine _ _ _ hs => exact hs

/-- A conditional in a block in front of an `else`, and a text with two conditionals and one
`else`. -/
theorem statement_printed_nested :
    (∃ (s : Scopes) (st : Stmt), st.Writable s false ∧ st.Attached ∧
      printed (st.tokens fun _ => false) =
        "if x < 1 then begin if true then step ( 2 ) end else repeat x := 3 ; break until false" ∧
      ∃ c t, onText .start (printed (st.tokens fun _ => false)).toList .start = .ok c ∧
        statement s false c = .ok t ∧ t.value.map erasing.stmt = some (erasing.stmt st) ∧
        t.rest.current.kind = .endOfFile) ∧
    ∃ p, Program.ofText "begin if true then if false then writeln else writeln end." "" = .ok p ∧
      (∀ st ∈ p.statements, st.Attached) ∧
      ∀ r ∈ p.routines, ∀ body ∈ r.2.body, ∀ st ∈ body.statements, st.Attached := by
  constructor
  · -- the block ends the inner conditional, so the `else` belongs to the outer one
    have hx : Name.IsIdentifier ⟨"x"⟩ := ⟨State.run_start (s := .word).1 (by decide), by decide⟩
    have hstep : Name.IsIdentifier ⟨"step"⟩ :=
      ⟨State.run_start (s := .word).1 (by decide), by decide⟩
    have hst : Writable
        ⟨⟨[(⟨"x"⟩, .var .start .integer),
          (⟨"step"⟩, .routine ⟨.start, "step", ⟨[(⟨"n"⟩, .var .start .integer)]⟩, none, none,
            true⟩)]⟩, []⟩ false
        (ifElse
          (.binary .start .boolean .less (.var .start .integer ⟨"x"⟩ .global) (.int .start 1))
          (block [ifElse (.bool .start true)
            (call ⟨"step"⟩ "step" [.int .start 2] [.integer] none) none])
          (some (repeatUntil (block [assign (.var .start .integer ⟨"x"⟩ .global) (.int .start 3),
            transition .breakLoop .start]) (.bool .start false)))) := by
      refine .ifElse (.binary (.var hx rfl rfl) (.int (by decide)) rfl) rfl ?_ ?_
      · refine .block (List.forall_mem_singleton.2 (.ifThen .bool rfl ?_))
        refine .call hstep rfl rfl rfl rfl (.inr (by decide)) ?_ (.cons rfl .nil)
        exact List.forall_mem_singleton.2 (.int (by decide))
      · refine .repeatUntil ?_ .bool rfl
        refine List.forall_mem_cons.2 ⟨?_, List.forall_mem_singleton.2 .transition⟩
        exact .assign (.var hx rfl rfl) rfl (.int (by decide)) rfl
    have hattached : Attached
        (ifElse
          (.binary .start .boolean .less (.var .start .integer ⟨"x"⟩ .global) (.int .start 1))
          (block [ifElse (.bool .start true)
            (call ⟨"step"⟩ "step" [.int .start 2] [.integer] none) none])
          (some (repeatUntil (block [assign (.var .start .integer ⟨"x"⟩ .global) (.int .start 3),
            transition .breakLoop .start]) (.bool .start false)))) := by
      refine .ifElse (.block (List.forall_mem_singleton.2 (.ifThen .call))) rfl ?_
      refine .repeatUntil (.block ?_)
      exact List.forall_mem_cons.2 ⟨.assign, List.forall_mem_singleton.2 .transition⟩
    obtain ⟨c, t, hc, ht, hvalue, hrest⟩ :=
      statement_printed.1 _ (fun _ => false) _ _ .start .start [] _
        (fun _ h => absurd h Bool.false_ne_true) hst hattached
        (fun _ h => absurd h (Option.not_mem_none _)) (onText_nil _ .start)
        (closes_of_isCloser rfl) (fun _ => by decide)
    rw [List.append_nil] at hc
    have hkind := congrArg (fun c : Cursor => c.current.kind) hrest
    exact ⟨_, _, hst, hattached, by cbv, c, t, hc, ht, hvalue, hkind⟩
  · obtain ⟨p, hp, -⟩ := @Program.exists_ofText
      "begin if true then if false then writeln else writeln end." "" (fun _ => true) (by cbv)
    exact ⟨p, hp, statement_printed.2 hp⟩

end Stmt

end MiniPascal
