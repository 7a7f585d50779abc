import MiniPascal.Proofs.Printing.Token

/-! Phrases: tokens that are read alike whatever follows them. -/

namespace MiniPascal

/-! ### Readings that are alike -/

/-- Two readings give things that are related, or fail with faults of one kind. -/
inductive Read.Alike {α β : Type} (R : α → β → Prop) : Read α → Read β → Prop
  | ok {a : α} {b : β} : R a b → Alike R (.ok a) (.ok b)
  | error {f f' : Located Fault} : f.value.kind = f'.value.kind → Alike R (.error f) (.error f')

namespace Read.Alike

variable {α β γ δ : Type} {R : α → β → Prop} {Q : γ → δ → Prop}

theorem pure {a : α} {b : β} (h : R a b) : Alike R (Pure.pure a) (Pure.pure b) := ok h

theorem bind {x : Read α} {y : Read β} {f : α → Read γ} {g : β → Read δ} (h : Alike R x y)
    (hf : ∀ a b, R a b → Alike Q (f a) (g b)) : Alike Q (x >>= f) (y >>= g) := by
  cases h with
  | ok h => exact hf _ _ h
  | error h => exact error h

theorem refl {R : α → α → Prop} (hR : ∀ a, R a a) (x : Read α) : Alike R x x := by
  cases x with
  | ok a => exact ok (hR a)
  | error f => exact error rfl

/-- The same step on both sides. -/
theorem same (x : Read α) {f : α → Read γ} {g : α → Read δ}
    (hf : ∀ a, Alike Q (f a) (g a)) : Alike Q (x >>= f) (x >>= g) := by
  cases x with
  | ok a => exact hf a
  | error f => exact error rfl

theorem mono {R' : α → β → Prop} {x : Read α} {y : Read β} (h : Alike R x y)
    (hR : ∀ a b, R a b → R' a b) : Alike R' x y := by
  cases h with
  | ok h => exact ok (hR _ _ h)
  | error h => exact error h

theorem succeeds_iff {x : Read α} {y : Read β} {P : α → Prop} {P' : β → Prop} (h : Alike R x y)
    (hP : ∀ a b, R a b → (P a ↔ P' b)) : x.Succeeds P ↔ y.Succeeds P' := by
  cases h with
  | ok h =>
    constructor
    · rintro ⟨_, hx, ha⟩
      cases hx
      exact .ok ((hP _ _ h).1 ha)
    · rintro ⟨_, hy, hb⟩
      cases hy
      exact .ok ((hP _ _ h).2 hb)
  | error => exact ⟨fun ⟨_, hx, _⟩ => (nomatch hx), fun ⟨_, hy, _⟩ => (nomatch hy)⟩

theorem cases {x : Read α} {y : Read β} (h : Alike R x y) :
    (∃ f f', x = .error f ∧ y = .error f' ∧ f.value.kind = f'.value.kind) ∨
      ∃ a b, x = .ok a ∧ y = .ok b ∧ R a b := by
  cases h with
  | ok h => exact .inr ⟨_, _, rfl, rfl, h⟩
  | error h => exact .inl ⟨_, _, rfl, rfl, h⟩

end Read.Alike

/-! ### Phrases -/

namespace Token

/-- The kinds of tokens in expressions, but for brackets and commas. -/
def Kind.isPart : Kind → Bool
  | .identifier | .integer | .double | .keyword .kwTrue | .keyword .kwFalse | .keyword .kwNot
  | .keyword .kwDiv | .keyword .kwMod | .keyword .kwAnd | .keyword .kwOr | .symbol .plus
  | .symbol .minus | .symbol .times | .symbol .slash | .symbol .equal | .symbol .notEqual
  | .symbol .less | .symbol .lessEqual | .symbol .greater | .symbol .greaterEqual
  | .symbol .dot => true
  | _ => false

/-- The kinds of tokens with which no expression goes on. -/
def Kind.isForeign (k : Kind) : Bool :=
  !k.isPart && k ≠ .symbol .openParen && k ≠ .symbol .openSquare

/-- How many brackets are open behind a token, if it may stand where so many are. -/
def Kind.depth? : Kind → Nat → Option Nat
  | .symbol .openParen, n | .symbol .openSquare, n => some (n + 1)
  | .symbol .closeParen, n + 1 | .symbol .closeSquare, n + 1 => some n
  | .symbol .comma, n + 1 => some (n + 1)
  | k, n => if k.isPart then some n else none

/-- The tokens close so many brackets more than they open, and outside of brackets there are only
parts of expressions. -/
def isPhrase (n : Nat) (ts : List Token) : Bool :=
  ts.foldlM (fun n t => t.kind.depth? n) n = some 0

section

variable {n m : Nat} {t : Token} {ts us : List Token} {k : Kind}

theorem isPhrase_nil : isPhrase n [] = true ↔ n = 0 := by
  simp [isPhrase]

theorem isPhrase_cons :
    isPhrase n (t :: ts) = true ↔ ∃ m, t.kind.depth? n = some m ∧ isPhrase m ts = true := by
  simp [isPhrase, List.foldlM_cons, Option.bind_eq_some_iff]

theorem isPhrase_cons_of_eq (h : t.kind.depth? n = some m) :
    isPhrase n (t :: ts) = isPhrase m ts := by
  rw [Bool.eq_iff_iff, isPhrase_cons, h]
  simp only [Option.some.injEq, exists_eq_left']

theorem Kind.depth?_part (h : k.isPart = true) (n : Nat) : k.depth? n = some n := by
  unfold Kind.depth?
  split <;> simp_all [Kind.isPart]

/-- A phrase starts with nothing that ends expressions. -/
theorem kind_ne_of_isPhrase (h : isPhrase 0 (t :: ts) = true) (hk : k.isForeign = true) :
    t.kind ≠ k := by
  rintro rfl
  obtain ⟨m, hm, -⟩ := isPhrase_cons.1 h
  unfold Kind.depth? at hm
  split at hm <;> simp_all [Kind.isForeign]

theorem kinds_of_isPhrase (h : isPhrase n ts = true) : ∀ t ∈ ts, t.kind ≠ .endOfFile := by
  induction ts generalizing n with
  | nil => exact List.forall_mem_nil _
  | cons t ts ih =>
    obtain ⟨m, hm, hts⟩ := isPhrase_cons.1 h
    refine List.forall_mem_cons.2 ⟨fun ht => ?_, ih hts⟩
    rw [ht] at hm
    cases hm

end

/-- In front of the rest of a phrase with `n` open brackets, a token of this kind leaves `m` of them
open. -/
def Kind.Leads (k : Kind) (n m : Nat) : Prop := ∀ d, k.depth? n = some d → d = m

namespace Kind

variable {k : Kind} {n m : Nat}

theorem Leads.isPhrase {t : Token} {ts : List Token} (h : t.kind.Leads n m)
    (ht : isPhrase n (t :: ts) = true) : isPhrase m ts = true := by
  obtain ⟨d, hd, hts⟩ := isPhrase_cons.1 ht
  rwa [h d hd] at hts

theorem leads_of_eq (h : k.depth? n = some m) : Leads k n m := by
  intro d hd
  exact Option.some.inj (hd.symm.trans h)

theorem leads_openParen : Leads (.symbol .openParen) n (n + 1) := leads_of_eq rfl

theorem leads_openSquare : Leads (.symbol .openSquare) n (n + 1) := leads_of_eq rfl

theorem leads_closeParen : Leads (.symbol .closeParen) (n + 1) n := leads_of_eq rfl

theorem leads_closeSquare : Leads (.symbol .closeSquare) (n + 1) n := leads_of_eq rfl

theorem leads_comma : Leads (.symbol .comma) n n := by
  cases n with
  | zero => nofun
  | succ n => exact leads_of_eq rfl

theorem leads_part (hk : k.isPart = true) : Leads k n n := leads_of_eq (depth?_part hk n)

end Kind

/-- The ends of expressions are no parts of them. -/
theorem Kind.part_of_isForeign {k : Kind} (h : k.isForeign = true) : k.isPart = false := by
  simp only [isForeign, Bool.and_eq_true, Bool.not_eq_true'] at h
  exact h.1.1

end Token

/-! ### Cursors -/

namespace Cursor

variable {α : Type} {c c' : Cursor}

theorem Taken.is_iff {t : Taken c α} {v : α} {d : Cursor} :
    t.Is v d ↔ t.value = v ∧ t.rest = d := by
  constructor
  · rintro ⟨hlt, rfl⟩
    exact ⟨rfl, rfl⟩
  · rintro ⟨rfl, rfl⟩
    exact ⟨t.lt, rfl⟩

theorem Passed.is_iff {t : Passed c α} {v : α} {d : Cursor} :
    t.Is v d ↔ t.value = v ∧ t.rest = d := by
  constructor
  · rintro ⟨hle, rfl⟩
    exact ⟨rfl, rfl⟩
  · rintro ⟨rfl, rfl⟩
    exact ⟨t.le, rfl⟩

/-- Equal values, taken in front of related cursors. -/
def Taken.Beside (R : Cursor → Cursor → Prop) (t : Taken c α) (t' : Taken c' α) : Prop :=
  t.value = t'.value ∧ R t.rest t'.rest

/-- Equal values, passed in front of related cursors. -/
def Passed.Beside (R : Cursor → Cursor → Prop) (t : Passed c α) (t' : Passed c' α) : Prop :=
  t.value = t'.value ∧ R t.rest t'.rest

end Cursor

namespace Read.Alike

open Cursor

variable {α β γ : Type} {c c' : Cursor} {R : Cursor → Cursor → Prop} {Q : β → γ → Prop}

/-- Something taken, and what is read behind it. -/
theorem taken {x : Read (Taken c α)} {y : Read (Taken c' α)} {f : Taken c α → Read β}
    {g : Taken c' α → Read γ} (h : Alike (Taken.Beside R) x y)
    (hf : ∀ a d d' hd hd', R d d' → Alike Q (f ⟨a, d, hd⟩) (g ⟨a, d', hd'⟩)) :
    Alike Q (x >>= f) (y >>= g) := by
  refine h.bind ?_
  rintro ⟨a, d, hd⟩ ⟨a', d', hd'⟩ ⟨rfl, hrest⟩
  exact hf _ _ _ _ _ hrest

/-- Something passed, and what is read behind it. -/
theorem passed {x : Read (Passed c α)} {y : Read (Passed c' α)} {f : Passed c α → Read β}
    {g : Passed c' α → Read γ} (h : Alike (Passed.Beside R) x y)
    (hf : ∀ a d d' hd hd', R d d' → Alike Q (f ⟨a, d, hd⟩) (g ⟨a, d', hd'⟩)) :
    Alike Q (x >>= f) (y >>= g) := by
  refine h.bind ?_
  rintro ⟨a, d, hd⟩ ⟨a', d', hd'⟩ ⟨rfl, hrest⟩
  exact hf _ _ _ _ _ hrest

/-- Something taken if it is there, and what is read behind it or without it. -/
theorem accepted {x : Read (Option (Taken c α))} {y : Read (Option (Taken c' α))}
    {f : Option (Taken c α) → Read β} {g : Option (Taken c' α) → Read γ}
    (h : Alike (Option.Rel (Taken.Beside R)) x y) (hnone : Alike Q (f none) (g none))
    (hf : ∀ a d d' hd hd', R d d' → Alike Q (f (some ⟨a, d, hd⟩)) (g (some ⟨a, d', hd'⟩))) :
    Alike Q (x >>= f) (y >>= g) := by
  refine h.bind ?_
  rintro _ _ (⟨hvalue, hrest⟩ | _)
  · rename_i t t'
    obtain ⟨a, d, hd⟩ := t
    obtain ⟨a', d', hd'⟩ := t'
    obtain rfl : a = a' := hvalue
    exact hf _ _ _ _ _ hrest
  · exact hnone

end Read.Alike

namespace Cursor

open Token Read

variable {α : Type} {c c' k k' : Cursor} {n m : Nat}

/-- Two cursors are in front of the same rest of a phrase with `n` open brackets, and behind it are
the cursors `k` and `k'`. -/
def Within (k k' : Cursor) (n : Nat) (c c' : Cursor) : Prop :=
  ∃ ts, isPhrase n ts = true ∧ c = k.behind ts ∧ c' = k'.behind ts

/-- Where no bracket is open, both kinds in sight behind the phrase have the property. -/
def Beyond (k k' : Cursor) (n : Nat) (P : Kind → Prop) : Prop :=
  n = 0 → P k.current.kind ∧ P k'.current.kind

theorem Beyond.mono {P Q : Kind → Prop} (h : Beyond k k' n P) (hPQ : ∀ kind, P kind → Q kind) :
    Beyond k k' n Q := fun hn => ⟨hPQ _ (h hn).1, hPQ _ (h hn).2⟩

theorem beyond_succ (P : Kind → Prop) : Beyond k k' (n + 1) P := nofun

/-- Without a token of the kind, and at the end of the text, nothing can be taken. -/
theorem expect_missing {kind : Kind} (h : c.current.kind ≠ kind ∨ kind = .endOfFile) :
    c.expect kind = c.missing kind := by
  unfold Cursor.expect
  split
  · rfl
  · rename_i hend
    refine if_neg fun hkind => ?_
    rcases h with hne | rfl
    · exact hne hkind
    · exact hend hkind

namespace Within

/-- Either the same token is in sight, or the phrase is over. -/
theorem cases (h : Within k k' n c c') :
    (∃ t ts, isPhrase n (t :: ts) = true ∧ c = (k.behind ts).push t ∧
      c' = (k'.behind ts).push t) ∨ n = 0 ∧ c = k ∧ c' = k' := by
  obtain ⟨_ | ⟨t, ts⟩, hts, rfl, rfl⟩ := h
  · exact .inr ⟨isPhrase_nil.1 hts, rfl, rfl⟩
  · exact .inl ⟨t, ts, hts, rfl, rfl⟩

theorem sees (h : Within k k' n c c') {s : Symbol} (hs : Beyond k k' n (· ≠ .symbol s)) :
    c.sees s = c'.sees s := by
  obtain ⟨t, ts, -, rfl, rfl⟩ | ⟨hn, rfl, rfl⟩ := h.cases
  · rfl
  · rw [sees_of_ne (hs hn).1, sees_of_ne (hs hn).2]

/-- A token of the expected kind is there on both sides or on none. -/
theorem expect {kind : Kind} (h : Within k k' n c c') (hkind : kind.Leads n m)
    (hk : Beyond k k' n (· ≠ kind)) :
    Alike (Taken.Beside (Within k k' m)) (c.expect kind) (c'.expect kind) := by
  have hmissing : ∀ {c c' : Cursor}, c.current.kind ≠ kind ∨ kind = .endOfFile →
      c'.current.kind ≠ kind ∨ kind = .endOfFile →
      Alike (Taken.Beside (Within k k' m)) (c.expect kind) (c'.expect kind) := by
    intro c c' hc hc'
    rw [expect_missing hc, expect_missing hc']
    exact .error rfl
  obtain ⟨t, ts, hts, rfl, rfl⟩ | ⟨hn, rfl, rfl⟩ := h.cases
  · by_cases ht : t.kind = kind ∧ kind ≠ .endOfFile
    · obtain ⟨rfl, hend⟩ := ht
      obtain ⟨_, hx, hlt, rfl⟩ := expect_push (c := k.behind ts) hend
      obtain ⟨_, hy, hlt', rfl⟩ := expect_push (c := k'.behind ts) hend
      rw [hx, hy]
      exact .ok ⟨rfl, ts, hkind.isPhrase hts, rfl, rfl⟩
    · have hnot : t.kind ≠ kind ∨ kind = .endOfFile := by
        by_contra hne
        obtain ⟨heq, hend⟩ := not_or.1 hne
        exact ht ⟨not_not.1 heq, hend⟩
      exact hmissing hnot hnot
  · exact hmissing (.inl (hk hn).1) (.inl (hk hn).2)

/-- The same token is in sight on both sides, so both take it or leave it. -/
theorem accept_token {select : Kind → Option α} {t : Token} {ts : List Token}
    (hts : isPhrase n (t :: ts) = true) (hend : select .endOfFile = none)
    (hselect : ∀ kind a, select kind = some a → kind.Leads n m) :
    Alike (Option.Rel (Taken.Beside (Within k k' m))) ((k.behind (t :: ts)).accept select)
      ((k'.behind (t :: ts)).accept select) := by
  rw [behind_cons, behind_cons]
  cases ht : select t.kind with
  | none =>
    rw [accept_none ht, accept_none ht]
    exact .ok .none
  | some a =>
    obtain ⟨_, hx, _, rfl, hlt, rfl⟩ := accept_push (c := k.behind ts) hend ht
    obtain ⟨_, hy, _, rfl, hlt', rfl⟩ := accept_push (c := k'.behind ts) hend ht
    rw [hx, hy]
    exact .ok (.some ⟨rfl, ts, (hselect _ a ht).isPhrase hts, rfl, rfl⟩)

/-- A token of a selected kind is there on both sides or on none. -/
theorem accept {select : Kind → Option α} (h : Within k k' n c c')
    (hend : select .endOfFile = none)
    (hselect : ∀ kind a, select kind = some a → kind.Leads n m)
    (hk : Beyond k k' n (select · = none)) :
    Alike (Option.Rel (Taken.Beside (Within k k' m))) (c.accept select) (c'.accept select) := by
  obtain ⟨t, ts, hts, rfl, rfl⟩ | ⟨hn, rfl, rfl⟩ := h.cases
  · exact accept_token hts hend hselect
  · rw [accept_none (hk hn).1, accept_none (hk hn).2]
    exact .ok .none

theorem acceptSymbol_token {s : Symbol} {t : Token} {ts : List Token}
    (hts : isPhrase n (t :: ts) = true) (hs : Kind.Leads (.symbol s) n m) :
    Alike (Option.Rel (Taken.Beside (Within k k' m))) ((k.behind (t :: ts)).acceptSymbol s)
      ((k'.behind (t :: ts)).acceptSymbol s) := by
  have hselect : ∀ (kind : Kind) (a : Unit), (if kind = .symbol s then some () else none) = some a →
      kind.Leads n m := by
    intro kind a hkind
    obtain rfl : kind = .symbol s := by
      by_contra hne
      rw [if_neg hne] at hkind
      cases hkind
    exact hs
  unfold Cursor.acceptSymbol
  refine .accepted (accept_token hts (by simp) hselect) (.pure .none) ?_
  exact fun _ d d' hd hd' hrest => .pure (.some ⟨rfl, hrest⟩)

theorem acceptSymbol {s : Symbol} (h : Within k k' n c c') (hs : Kind.Leads (.symbol s) n m)
    (hk : Beyond k k' n (· ≠ .symbol s)) :
    Alike (Option.Rel (Taken.Beside (Within k k' m))) (c.acceptSymbol s) (c'.acceptSymbol s) := by
  obtain ⟨t, ts, hts, rfl, rfl⟩ | ⟨hn, rfl, rfl⟩ := h.cases
  · exact acceptSymbol_token hts hs
  · rw [acceptSymbol_none (hk hn).1, acceptSymbol_none (hk hn).2]
    exact .ok .none

theorem symbol {s : Symbol} (h : Within k k' n c c') (hs : Kind.Leads (.symbol s) n m)
    (hk : Beyond k k' n (· ≠ .symbol s)) :
    Alike (Taken.Beside (Within k k' m)) (c.symbol s) (c'.symbol s) := h.expect hs hk

theorem identifier (h : Within k k' n c c') (hk : Beyond k k' n (· ≠ .identifier)) :
    Alike (Taken.Beside (Within k k' n)) c.identifier c'.identifier := by
  unfold Cursor.identifier
  refine .taken (h.expect (Kind.leads_part rfl) hk) fun t d d' hd hd' hrest => ?_
  exact .pure ⟨rfl, hrest⟩

end Within

/-! ### Sizes -/

theorem size_le_results (c : Cursor) : c.size ≤ c.results.length := by
  unfold size results
  split
  · exact Nat.zero_le _
  · rename_i hend
    have hcurrent : c.current ≠ .endOfFile c.stop := by
      intro heq
      rw [heq] at hend
      exact hend rfl
    simp [hcurrent]

theorem size_lt_push {t : Token} (h : t.kind ≠ .endOfFile) : c.size < (c.push t).size := by
  have hpush : (c.push t).size = c.results.length + 1 := if_neg h
  rw [hpush]
  exact Nat.lt_succ_of_le c.size_le_results

theorem size_lt_behind {ts : List Token} (h : ∀ t ∈ ts, t.kind ≠ .endOfFile) (hne : ts ≠ []) :
    c.size < (c.behind ts).size := by
  induction ts with
  | nil => exact absurd rfl hne
  | cons t ts ih =>
    obtain ⟨ht, hts⟩ := List.forall_mem_cons.1 h
    rw [behind_cons]
    refine Nat.lt_of_le_of_lt ?_ (size_lt_push ht)
    by_cases hnil : ts = []
    · rw [hnil]
      exact Nat.le_refl _
    · exact Nat.le_of_lt (ih hts hnil)

/-! ### Positions -/

open Recoding

/-- Positions do not matter for phrases. -/
theorem isPhrase_erasing (n : Nat) (ts : List Token) :
    isPhrase n (ts.map erasing.token) = isPhrase n ts := by
  rw [isPhrase, List.foldlM_map]
  rfl

theorem erasing_ofSymbol (x : Symbol) : erasing.token (ofSymbol x) = ofSymbol x :=
  (ofSymbol_printable x).erasing .start

/-- The cursor is in front of these tokens and then of what the other is in front of, all of it
apart from positions. -/
def Shows (c : Cursor) (ts : List Token) (d : Cursor) : Prop :=
  erasing.cursor c = (erasing.cursor d).behind (ts.map erasing.token)

variable {β : Type} {f : α → β} {v : β} {d : Cursor}

theorem exists_shows {x : Read Cursor} {ts : List Token}
    (h : x.map erasing.cursor = .ok ((erasing.cursor d).behind (ts.map erasing.token))) :
    ∃ c, x = .ok c ∧ c.Shows ts d := by
  cases x with
  | ok c => exact ⟨c, rfl, Except.ok.inj h⟩
  | error f => cases h

/-- What has been taken is this value and the rest is this cursor, apart from positions. -/
def Taken.Like (f : α → β) (t : Taken c α) (v : β) (d : Cursor) : Prop :=
  f t.value = v ∧ erasing.cursor t.rest = erasing.cursor d

/-- What has been passed is this value and the rest is this cursor, apart from positions. -/
def Passed.Like (f : α → β) (t : Passed c α) (v : β) (d : Cursor) : Prop :=
  f t.value = v ∧ erasing.cursor t.rest = erasing.cursor d

theorem taken_like_iff {x : Read (Taken c α)} {y : Read (Taken (erasing.cursor c) β)}
    (h : erasing.Recodes (erasing.taken f) x y) :
    x.Succeeds (·.Like f v d) ↔ y.Succeeds (·.Is v (erasing.cursor d)) := by
  constructor
  · rintro ⟨t, rfl, hvalue, hrest⟩
    subst hvalue
    rw [← hrest]
    exact ⟨_, h, _, rfl⟩
  · rintro ⟨_, hy, hlt, rfl⟩
    obtain ⟨t, ht, hsame⟩ := h.exists_of_ok hy
    exact ⟨t, ht, congrArg Taken.value hsame, congrArg Taken.rest hsame⟩

theorem passed_like_iff {x : Read (Passed c α)} {y : Read (Passed (erasing.cursor c) β)}
    (h : erasing.Recodes (erasing.passed f) x y) :
    x.Succeeds (·.Like f v d) ↔ y.Succeeds (·.Is v (erasing.cursor d)) := by
  constructor
  · rintro ⟨t, rfl, hvalue, hrest⟩
    subst hvalue
    rw [← hrest]
    exact ⟨_, h, _, rfl⟩
  · rintro ⟨_, hy, hle, rfl⟩
    obtain ⟨t, ht, hsame⟩ := h.exists_of_ok hy
    exact ⟨t, ht, congrArg Passed.value hsame, congrArg Passed.rest hsame⟩

end Cursor

end MiniPascal
