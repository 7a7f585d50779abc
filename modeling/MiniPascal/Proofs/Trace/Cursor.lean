import MiniPascal.Grammar.Program

/-! Readings that tell when a rule starts and when a token is fetched. The levels of these events go
down. -/

namespace MiniPascal

/-- The rules that read a program. A loop over parts of a rule is a rule of its own. -/
inductive Rule where
  | header | namedStatement | writeStatement | callStatement | assignment | designator
  | named | callOf | arguments | selectors | operations (p : Grammar.Precedence)
  | parameters | resultType | declarations | routine | heading
  | sectionDeclarations | sectionDeclaration
  | variableDeclaration | constantDeclaration | typeDeclaration | parameterGroups | variableGroup
  | fieldList | identifiers | typeName | ranges | range
  | statements | body | statement | compound | condition | loopHead | loopCounter | loopLimit
  | writeArgs | writeArg | expressions | indices | expression
  | operation (p : Grammar.Precedence) | operand (p : Grammar.Precedence)
  | unary | primary | number
  deriving DecidableEq, Repr

namespace Rule

/-- In front of the same tokens, rules start in the order of falling ranks: what goes on behind a
finished part, then what follows it, then its parts from the outside in. -/
def rank : Rule → Nat
  | header => 63
  | namedStatement => 62 | writeStatement => 61 | callStatement => 60 | assignment => 59
  | designator => 58 | named => 57 | callOf => 56 | arguments => 55 | selectors => 50
  | operations p => (3 - p.height) + 47
  | parameters => 46 | resultType => 45 | declarations => 44 | routine => 43 | heading => 42
  | sectionDeclarations => 41 | sectionDeclaration => 40
  | variableDeclaration => 39 | constantDeclaration => 38 | typeDeclaration => 37
  | parameterGroups => 36 | variableGroup => 35 | fieldList => 34 | identifiers => 33
  | typeName => 32 | ranges => 31 | range => 30
  | statements => 29 | body => 28 | statement => 27 | compound => 26
  | condition => 25 | loopHead => 24 | loopCounter => 23 | loopLimit => 22
  | writeArgs => 21 | writeArg => 20 | expressions => 19 | indices => 18 | expression => 17
  | operation p => 2 * p.height + 4 | operand p => 2 * p.height + 3
  | unary => 4 | primary => 3 | number => 2

/-- The level of a rule that starts with so many tokens left. All ranks are below 64, so the number
of tokens decides first. -/
def level (r : Rule) (left : Nat) : Nat := 64 * left + r.rank

/-- A bound of all that a rule tells that starts with so many tokens left. -/
def top (r : Rule) (left : Nat) : Nat := 64 * left + (r.rank + 1)

end Rule

/-- What a traced reading tells, with the number of tokens left, the one in sight included. -/
inductive Event where
  | fetch (left : Nat)
  | enter (r : Rule) (left : Nat)
  deriving DecidableEq, Repr

namespace Event

/-- A rule is above the fetch of the next token, and that is above all that follows. -/
def level : Event → Nat
  | fetch left => 64 * left
  | enter r left => r.level left

end Event

/-- A reading and the events on its way, in their order. -/
structure Traced (α : Type) where
  outcome : Read α
  trace : List Event

namespace Traced

instance : Monad Traced where
  pure a := ⟨.ok a, []⟩
  bind x k :=
    match x.outcome with
    | .ok a => ⟨(k a).outcome, x.trace ++ (k a).trace⟩
    | .error e => ⟨.error e, x.trace⟩

/-- Checks are no events. -/
instance : MonadLift Read Traced := ⟨fun r => ⟨r, []⟩⟩

/-- Tells that a rule starts. -/
def enter (r : Rule) (c : Cursor) : Traced Unit := ⟨.ok (), [.enter r c.size]⟩

/-! ### Cursors -/

open Cursor

/-- To take the token in sight, the next one is fetched. -/
def take (c : Cursor) (h : c.current.kind ≠ .endOfFile) : Traced (Taken c Token) :=
  ⟨c.take h, [.fetch c.size]⟩

def expect (c : Cursor) (kind : Token.Kind) : Traced (Taken c Token) :=
  if h : c.current.kind = .endOfFile then c.missing kind
  else if c.current.kind = kind then take c h
  else c.missing kind

def symbol (c : Cursor) (s : Symbol) : Traced (Taken c Token) := expect c (.symbol s)

def keyword (c : Cursor) (k : Keyword) : Traced (Taken c Token) := expect c (.keyword k)

def identifier (c : Cursor) : Traced (Taken c (Located Name)) := do
  let ⟨token, d, h⟩ ← expect c .identifier
  return ⟨⟨token.position, ⟨token.text⟩⟩, d, h⟩

def accept {α : Type} (c : Cursor) (select : Token.Kind → Option α) :
    Traced (Option (Taken c (α × Token))) :=
  if h : c.current.kind = .endOfFile then pure none
  else
    match select c.current.kind with
    | none => pure none
    | some a => do
      let ⟨token, d, hd⟩ ← take c h
      return some ⟨(a, token), d, hd⟩

def acceptSymbol (c : Cursor) (s : Symbol) : Traced (Option (Taken c Token)) := do
  match ← accept c fun k => if k = .symbol s then some () else none with
  | some ⟨(_, token), d, h⟩ => return some ⟨token, d, h⟩
  | none => return none

def acceptKeyword (c : Cursor) (k : Keyword) : Traced (Option (Taken c Token)) := do
  match ← accept c fun kind => if kind = .keyword k then some () else none with
  | some ⟨(_, token), d, h⟩ => return some ⟨token, d, h⟩
  | none => return none

/-- Behind the end of the text the end is fetched once more. -/
def finish (c : Cursor) : Traced Unit :=
  if c.current.kind = .endOfFile then ⟨.ok (), [.fetch 0]⟩ else c.missing .endOfFile

/-- The first fetch, with all results and the end of the text left. -/
def start (text : String) : Traced Cursor :=
  ⟨Cursor.ofText text, [.fetch ((Token.scan text false).length + 1)]⟩

def identifiers (c : Cursor) : Traced (Taken c (List (Located Name))) := do
  enter .identifiers c
  let ⟨name, c₁, h₁⟩ ← identifier c
  match ← acceptSymbol c₁ .comma with
  | none => return ⟨[name], c₁, h₁⟩
  | some ⟨_, c₂, h₂⟩ =>
    let ⟨names, c₃, h₃⟩ ← identifiers c₂
    return Taken.mk (name :: names) c₃ h₃ |>.after h₂ |>.after h₁
termination_by c.size

end Traced

/-- A reading and a traced one with the same outcome. The levels of the events fall; all are below
`hi`, and none is below the bound that belongs to the result. -/
structure Traces {α : Type} (r : Read α) (m : Traced α) (hi : Nat) (lo : α → Nat) : Prop where
  outcome : m.outcome = r
  falls : (m.trace.map Event.level).Pairwise (· > ·)
  below : ∀ e ∈ m.trace, e.level < hi
  above : ∀ a, r = .ok a → lo a ≤ hi ∧ ∀ e ∈ m.trace, lo a ≤ e.level

namespace Traces

open Cursor

variable {α β : Type} {r : Read α} {m : Traced α} {k : α → Read β} {k' : α → Traced β}
  {hi hi' n x y : Nat} {lo lo' : α → Nat} {last : β → Nat} {c : Cursor}

/-! ### Steps -/

theorem pure {a : α} (h : lo a ≤ hi) : Traces (Pure.pure a) (Pure.pure a) hi lo where
  outcome := rfl
  falls := List.Pairwise.nil
  below := List.forall_mem_nil _
  above := by
    intro a' ha
    obtain rfl := Except.ok.inj ha
    exact ⟨h, List.forall_mem_nil _⟩

/-- What is not traced tells nothing. -/
theorem lift (r : Read α) : Traces r (liftM r) hi fun _ => hi where
  outcome := rfl
  falls := List.Pairwise.nil
  below := List.forall_mem_nil _
  above := fun _ _ => ⟨Nat.le_refl hi, List.forall_mem_nil _⟩

theorem fail {e : Located Fault} : Traces (.error e) (liftM (.error e : Read α)) hi lo where
  outcome := rfl
  falls := List.Pairwise.nil
  below := List.forall_mem_nil _
  above := nofun

/-- One reading behind another, below all its events. -/
theorem bind (h : Traces r m hi lo)
    (hk : ∀ a, r = .ok a → Traces (k a) (k' a) (lo a) last) :
    Traces (r >>= k) (m >>= k') hi last := by
  obtain ⟨outcome, trace⟩ := m
  obtain ⟨houtcome, hfalls, hbelow, habove⟩ := h
  obtain rfl : outcome = r := houtcome
  cases outcome with
  | error e => exact ⟨rfl, hfalls, hbelow, nofun⟩
  | ok a =>
    -- the bound of the first reading separates its events from those of the second
    obtain ⟨hle, hlast⟩ := habove a rfl
    obtain ⟨houtcome', hfalls', hbelow', habove'⟩ := hk a rfl
    constructor
    · exact houtcome'
    · show ((trace ++ (k' a).trace).map Event.level).Pairwise (· > ·)
      rw [List.map_append, List.pairwise_append]
      refine ⟨hfalls, hfalls', ?_⟩
      intro n hn n' hn'
      obtain ⟨e, he, rfl⟩ := List.mem_map.1 hn
      obtain ⟨e', he', rfl⟩ := List.mem_map.1 hn'
      exact Nat.lt_of_lt_of_le (hbelow' e' he') (hlast e he)
    · intro e he
      rcases List.mem_append.1 he with he | he
      · exact hbelow e he
      · exact Nat.lt_of_lt_of_le (hbelow' e he) hle
    · intro b hb
      obtain ⟨hle', hlast'⟩ := habove' b hb
      refine ⟨Nat.le_trans hle' hle, ?_⟩
      intro e he
      rcases List.mem_append.1 he with he | he
      · exact Nat.le_trans hle' (hlast e he)
      · exact hlast' e he

theorem mono (h : Traces r m hi lo) (hhi : hi ≤ hi') (hlo : ∀ a, lo' a ≤ lo a) :
    Traces r m hi' lo' where
  outcome := h.outcome
  falls := h.falls
  below := by
    intro e he
    exact Nat.lt_of_lt_of_le (h.below e he) hhi
  above := by
    intro a ha
    obtain ⟨hle, hlast⟩ := h.above a ha
    refine ⟨Nat.le_trans (hlo a) (Nat.le_trans hle hhi), ?_⟩
    intro e he
    exact Nat.le_trans (hlo a) (hlast e he)

/-- The events of a part are below the rule that it is a part of. -/
theorem within (h : Traces r m (64 * n + y) lo) (hle : y ≤ x) : Traces r m (64 * n + x) lo :=
  h.mono (Nat.add_le_add_left hle (64 * n)) fun a => Nat.le_refl (lo a)

/-- A check, then more. -/
theorem check (hk : ∀ a, Traces (k a) (k' a) hi last) :
    Traces (r >>= k) ((liftM r : Traced α) >>= k') hi last :=
  (lift r).bind fun a _ => hk a

/-- A rule starts above its parts. -/
theorem enter {s : Rule} (h : Traces r m (s.level c.size) lo) :
    Traces r (do Traced.enter s c; m) (s.top c.size) lo where
  outcome := h.outcome
  falls := by
    apply List.Pairwise.cons _ h.falls
    intro n hn
    obtain ⟨e, he, rfl⟩ := List.mem_map.1 hn
    exact h.below e he
  below := by
    intro e he
    rcases List.mem_cons.1 he with rfl | he
    · exact Nat.lt_succ_self _
    · exact Nat.lt_succ_of_lt (h.below e he)
  above := by
    intro a ha
    obtain ⟨hle, hlast⟩ := h.above a ha
    refine ⟨Nat.le_succ_of_le hle, ?_⟩
    intro e he
    rcases List.mem_cons.1 he with rfl | he
    · exact hle
    · exact hlast e he

/-- Something is taken, and what follows is below its last event. -/
theorem taken {γ : Type} {r : Read (Taken c γ)} {m : Traced (Taken c γ)}
    {k : Taken c γ → Read β} {k' : Taken c γ → Traced β}
    (h : Traces r m hi fun t => 64 * t.rest.size + x)
    (hk : ∀ value rest lt, Traces (k ⟨value, rest, lt⟩) (k' ⟨value, rest, lt⟩)
      (64 * rest.size + x) last) :
    Traces (r >>= k) (m >>= k') hi last :=
  h.bind fun t _ => hk t.value t.rest t.lt

/-- Something is passed, and what follows is below its last event. -/
theorem passed {γ : Type} {r : Read (Passed c γ)} {m : Traced (Passed c γ)}
    {k : Passed c γ → Read β} {k' : Passed c γ → Traced β}
    (h : Traces r m hi fun t => 64 * t.rest.size + x)
    (hk : ∀ value rest le, Traces (k ⟨value, rest, le⟩) (k' ⟨value, rest, le⟩)
      (64 * rest.size + x) last) :
    Traces (r >>= k) (m >>= k') hi last :=
  h.bind fun t _ => hk t.value t.rest t.le

/-- Something is taken or not; in the latter case nothing is told. -/
theorem accepted {γ : Type} {r : Read (Option (Taken c γ))} {m : Traced (Option (Taken c γ))}
    {k : Option (Taken c γ) → Read β} {k' : Option (Taken c γ) → Traced β}
    (h : Traces r m hi fun o => o.elim hi fun t => 64 * t.rest.size + 64)
    (hnone : Traces (k none) (k' none) hi last)
    (hsome : ∀ value rest lt, Traces (k (some ⟨value, rest, lt⟩)) (k' (some ⟨value, rest, lt⟩))
      (64 * rest.size + 64) last) :
    Traces (r >>= k) (m >>= k') hi last := by
  apply h.bind
  intro o _
  cases o with
  | none => exact hnone
  | some t => exact hsome t.value t.rest t.lt

/-! ### Cursors -/

variable (c)

/-- The fetch of the next token is below all rules that start in front of the one in sight. -/
theorem take (h : c.current.kind ≠ .endOfFile) :
    Traces (c.take h) (Traced.take c h) (64 * c.size + (x + 1))
      fun t => 64 * t.rest.size + 64 where
  outcome := rfl
  falls := List.pairwise_singleton _ _
  below := List.forall_mem_singleton.2 (Nat.lt_add_of_pos_right (Nat.succ_pos x))
  above := by
    intro t _
    have hlt := t.lt
    have hfetch : 64 * t.rest.size + 64 ≤ 64 * c.size := by omega
    exact ⟨Nat.le_add_right_of_le hfetch, List.forall_mem_singleton.2 hfetch⟩

theorem expect (kind : Token.Kind) :
    Traces (c.expect kind) (Traced.expect c kind) (64 * c.size + (x + 1))
      fun t => 64 * t.rest.size + 64 := by
  unfold Cursor.expect Traced.expect
  split
  · exact fail
  · split
    · exact take c _
    · exact fail

theorem symbol (s : Symbol) :
    Traces (c.symbol s) (Traced.symbol c s) (64 * c.size + (x + 1))
      fun t => 64 * t.rest.size + 64 :=
  expect c (.symbol s)

theorem keyword (k : Keyword) :
    Traces (c.keyword k) (Traced.keyword c k) (64 * c.size + (x + 1))
      fun t => 64 * t.rest.size + 64 :=
  expect c (.keyword k)

theorem identifier :
    Traces c.identifier (Traced.identifier c) (64 * c.size + (x + 1))
      fun t => 64 * t.rest.size + 64 := by
  refine taken (expect c .identifier) ?_
  intro token c₁ h₁
  exact pure (Nat.le_refl _)

variable {c}

theorem accept (select : Token.Kind → Option α) :
    Traces (c.accept select) (Traced.accept c select) (64 * c.size + (x + 1))
      fun o => o.elim (64 * c.size + (x + 1)) fun t => 64 * t.rest.size + 64 := by
  unfold Cursor.accept Traced.accept
  split
  · exact pure (Nat.le_refl _)
  · cases select c.current.kind with
    | none => exact pure (Nat.le_refl _)
    | some a =>
      refine taken (take c _) ?_
      intro token c₁ h₁
      exact pure (Nat.le_refl _)

theorem acceptSymbol (s : Symbol) :
    Traces (c.acceptSymbol s) (Traced.acceptSymbol c s) (64 * c.size + (x + 1))
      fun o => o.elim (64 * c.size + (x + 1)) fun t => 64 * t.rest.size + 64 := by
  apply accepted (accept _)
  · exact pure (Nat.le_refl _)
  · intro token c₁ h₁
    exact pure (Nat.le_refl _)

theorem acceptKeyword (k : Keyword) :
    Traces (c.acceptKeyword k) (Traced.acceptKeyword c k) (64 * c.size + (x + 1))
      fun o => o.elim (64 * c.size + (x + 1)) fun t => 64 * t.rest.size + 64 := by
  apply accepted (accept _)
  · exact pure (Nat.le_refl _)
  · intro token c₁ h₁
    exact pure (Nat.le_refl _)

theorem identifiers (c : Cursor) :
    Traces c.identifiers (Traced.identifiers c) (Rule.identifiers.top c.size)
      fun t => 64 * t.rest.size + 64 := by
  rw [Cursor.identifiers, Traced.identifiers]
  refine enter ?_
  refine taken (identifier c) ?_
  intro name c₁ h₁
  refine accepted (acceptSymbol .comma) ?_ ?_
  · exact pure (Nat.le_refl _)
  · intro _ c₂ h₂
    refine taken ((identifiers c₂).within (by decide)) ?_
    intro names c₃ h₃
    exact pure (Nat.le_refl _)
termination_by c.size

end Traces

end MiniPascal
