import MiniPascal.Grammar.Cursor

/-! Cursors in front of known tokens. -/

namespace MiniPascal

/-- The reading gives something that has the property. -/
def Read.Succeeds {α : Type} (r : Read α) (Q : α → Prop) : Prop := ∃ a, r = .ok a ∧ Q a

namespace Read.Succeeds

variable {α β : Type} {r : Read α} {Q : α → Prop}

theorem ok {a : α} (h : Q a) : Succeeds (.ok a) Q := ⟨a, rfl, h⟩

theorem pure {a : α} (h : Q a) : Succeeds (Pure.pure a) Q := ok h

theorem bind {f : α → Read β} {P : β → Prop} (hr : Succeeds r Q)
    (hf : ∀ a, Q a → Succeeds (f a) P) : Succeeds (r >>= f) P := by
  obtain ⟨a, rfl, ha⟩ := hr
  exact hf a ha

/-- A step whose result is checked only. -/
theorem check {r : Checked α} {f : α → Read β} {P : β → Prop} {a : α} (hr : r = .ok a)
    (hf : Succeeds (f a) P) : Succeeds (Read.checked r >>= f) P := by
  rw [hr]
  exact hf

/-- A step whose result is known. -/
theorem step {f : α → Read β} {P : β → Prop} {a : α} (hr : r = .ok a)
    (hf : Succeeds (f a) P) : Succeeds (r >>= f) P := by
  rw [hr]
  exact hf

end Read.Succeeds

namespace Cursor

variable {c d : Cursor} {t : Token} {ts us : List Token} {α : Type}

/-- What has been taken is this value, and the rest is this cursor. -/
def Taken.Is (t : Taken c α) (v : α) (d : Cursor) : Prop := ∃ h, t = ⟨v, d, h⟩

/-- What has been passed is this value, and the rest is this cursor. -/
def Passed.Is (t : Passed c α) (v : α) (d : Cursor) : Prop := ∃ h, t = ⟨v, d, h⟩

/-- The results from the one in sight on. The end of the text is none. -/
def results (c : Cursor) : List Token.Result :=
  if c.current = .endOfFile c.stop && c.pending.isEmpty then [] else .ok c.current :: c.pending

/-- The cursor on a token in front of a cursor. -/
def push (c : Cursor) (t : Token) : Cursor := ⟨t, c.results, c.stop⟩

/-- The cursor on the first of some tokens in front of a cursor. -/
def behind (c : Cursor) (ts : List Token) : Cursor := ts.foldr (fun t c => c.push t) c

@[simp] theorem behind_nil : c.behind [] = c := rfl

@[simp] theorem behind_cons : c.behind (t :: ts) = (c.behind ts).push t := rfl

@[simp] theorem behind_append : c.behind (ts ++ us) = (c.behind us).behind ts :=
  List.foldr_append

@[simp] theorem push_current : (c.push t).current = t := rfl

@[simp] theorem behind_stop : (c.behind ts).stop = c.stop := by
  induction ts with
  | nil => rfl
  | cons t ts ih => exact ih

/-- Going on leads behind the token. -/
theorem advance_push : (c.push t).advance = .ok c := by
  obtain ⟨current, pending, stop⟩ := c
  by_cases hend : current = .endOfFile stop ∧ pending = []
  · obtain ⟨rfl, rfl⟩ := hend
    simp [push, results, advance]
  · have hresults : results ⟨current, pending, stop⟩ = .ok current :: pending := by
      simpa [results] using hend
    simp only [push, hresults, advance]

/-- Where going on leads behind the token in sight, the token can be taken. -/
theorem take_of_advance (h : c.current.kind ≠ .endOfFile) (hd : c.advance = .ok d) :
    Read.Succeeds (c.take h) (·.Is c.current d) := by
  unfold take
  split
  · rename_i d' hd'
    rw [hd] at hd'
    cases hd'
    exact .ok ⟨_, rfl⟩
  · rename_i e he
    rw [hd] at he
    cases he

theorem expect_of_advance (h : c.current.kind ≠ .endOfFile) (hd : c.advance = .ok d) :
    Read.Succeeds (c.expect c.current.kind) (·.Is c.current d) := by
  unfold expect
  rw [dif_neg h, if_pos rfl]
  exact take_of_advance h hd

theorem expect_fault {fault : Located Fault} (h : c.current.kind ≠ .endOfFile)
    (hd : c.advance = .error fault) : c.expect c.current.kind = .error fault := by
  unfold expect take
  rw [dif_neg h, if_pos rfl]
  split
  · rename_i d' hd'
    rw [hd] at hd'
    cases hd'
  · rename_i e he
    rw [hd] at he
    cases he
    rfl

theorem take_push (h : t.kind ≠ .endOfFile) :
    Read.Succeeds ((c.push t).take h) (·.Is t c) :=
  take_of_advance (c := c.push t) h advance_push

theorem expect_push (h : t.kind ≠ .endOfFile) :
    Read.Succeeds ((c.push t).expect t.kind) (·.Is t c) :=
  expect_of_advance (c := c.push t) h advance_push

theorem symbol_push {s : Symbol} (h : t.kind = .symbol s) :
    Read.Succeeds ((c.push t).symbol s) (·.Is t c) := by
  rw [symbol, ← h]
  exact expect_push (by simp [h])

theorem keyword_push {k : Keyword} (h : t.kind = .keyword k) :
    Read.Succeeds ((c.push t).keyword k) (·.Is t c) := by
  rw [keyword, ← h]
  exact expect_push (by simp [h])

theorem identifier_push (h : t.kind = .identifier) :
    Read.Succeeds (c.push t).identifier (·.Is ⟨t.position, ⟨t.text⟩⟩ c) := by
  have hexpect : Read.Succeeds ((c.push t).expect .identifier) (·.Is t c) := by
    rw [← h]
    exact expect_push (by simp [h])
  unfold identifier
  apply Read.Succeeds.bind hexpect
  rintro _ ⟨hlt, rfl⟩
  exact .pure ⟨_, rfl⟩

theorem accept_push {select : Token.Kind → Option α} {a : α} (hend : select .endOfFile = none)
    (h : select t.kind = some a) :
    Read.Succeeds ((c.push t).accept select) fun o => ∃ x, o = some x ∧ x.Is (a, t) c := by
  have hkind : (c.push t).current.kind ≠ .endOfFile := by
    intro hkind
    rw [push_current] at hkind
    rw [hkind, hend] at h
    cases h
  unfold accept
  rw [dif_neg hkind]
  simp only [push_current, h]
  apply Read.Succeeds.bind (take_push hkind)
  rintro _ ⟨hlt, rfl⟩
  exact .pure ⟨_, rfl, _, rfl⟩

theorem accept_none {select : Token.Kind → Option α} (h : select c.current.kind = none) :
    c.accept select = .ok none := by
  unfold accept
  split
  · rfl
  · simp only [h]

theorem acceptSymbol_push {s : Symbol} (h : t.kind = .symbol s) :
    Read.Succeeds ((c.push t).acceptSymbol s) fun o => ∃ x, o = some x ∧ x.Is t c := by
  unfold acceptSymbol
  apply Read.Succeeds.bind (accept_push (by simp) (if_pos h))
  rintro _ ⟨_, rfl, hlt, rfl⟩
  exact .pure ⟨_, rfl, _, rfl⟩

theorem acceptSymbol_none {s : Symbol} (h : c.current.kind ≠ .symbol s) :
    c.acceptSymbol s = .ok none := by
  unfold acceptSymbol
  rw [accept_none (if_neg h)]
  rfl

theorem acceptKeyword_push {k : Keyword} (h : t.kind = .keyword k) :
    Read.Succeeds ((c.push t).acceptKeyword k) fun o => ∃ x, o = some x ∧ x.Is t c := by
  unfold acceptKeyword
  apply Read.Succeeds.bind (accept_push (by simp) (if_pos h))
  rintro _ ⟨_, rfl, hlt, rfl⟩
  exact .pure ⟨_, rfl, _, rfl⟩

theorem acceptKeyword_none {k : Keyword} (h : c.current.kind ≠ .keyword k) :
    c.acceptKeyword k = .ok none := by
  unfold acceptKeyword
  rw [accept_none (if_neg h)]
  rfl

theorem sees_push {s : Symbol} (h : t.kind = .symbol s) : (c.push t).sees s = true :=
  decide_eq_true h

theorem sees_of_ne {s : Symbol} (h : c.current.kind ≠ .symbol s) : c.sees s = false :=
  decide_eq_false h

end Cursor

end MiniPascal
