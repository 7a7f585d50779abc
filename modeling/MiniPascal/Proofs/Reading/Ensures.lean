import MiniPascal.Grammar.Cursor
import MiniPascal.Proofs.Checked.Scope

/-! What a reading rule guarantees about its result, and the names a cursor hands out. -/

namespace MiniPascal

/-- Whatever the reading gives, if it gives anything, has the property. -/
def Read.Ensures {α : Type} (r : Read α) (Q : α → Prop) : Prop := ∀ a, r = .ok a → Q a

namespace Read.Ensures

variable {α β : Type} {r : Read α} {Q : α → Prop}

theorem ok {a : α} (h : Q a) : Ensures (.ok a) Q := by
  intro b hb
  cases hb
  exact h

theorem pure {a : α} (h : Q a) : Ensures (Pure.pure a) Q := ok h

theorem error {e : Located Fault} : Ensures (.error e : Read α) Q := nofun

theorem bind {f : α → Read β} {P : β → Prop} (hr : Ensures r Q)
    (hf : ∀ a, Q a → Ensures (f a) P) : Ensures (r >>= f) P := by
  intro b hb
  cases hr' : r with
  | error e => rw [hr'] at hb; cases hb
  | ok a => rw [hr'] at hb; exact hf a (hr a hr') b hb

theorem mono {P : α → Prop} (h : Ensures r Q) (hQ : ∀ a, Q a → P a) : Ensures r P :=
  fun a ha => hQ a (h a ha)

/-- A step about which nothing needs to be known. -/
theorem step {f : α → Read β} {P : β → Prop} (hf : ∀ a, Ensures (f a) P) :
    Ensures (r >>= f) P :=
  bind (Q := fun _ => True) (fun _ _ => trivial) fun a _ => hf a

/-- A step whose result is known by an equation. -/
theorem known {f : α → Read β} {P : β → Prop} (hf : ∀ a, r = .ok a → Ensures (f a) P) :
    Ensures (r >>= f) P :=
  bind (fun _ h => h) hf

end Read.Ensures

theorem ok_of_bind {ε α β : Type} {x : Except ε α} {f : α → Except ε β} {b : β}
    (h : (x >>= f) = .ok b) : ∃ a, x = .ok a ∧ f a = .ok b := by
  cases x with
  | error e => cases h
  | ok a => exact ⟨a, rfl, h⟩

theorem Read.checked_eq_ok {α : Type} {r : Checked α} {a : α} :
    Read.checked r = .ok a ↔ r = .ok a := by
  cases r <;> simp [Read.checked, Except.mapError]

/-- A checked step, whose result is known by an equation. -/
theorem Read.ensures_checked {α : Type} (r : Checked α) :
    Ensures (Read.checked r) fun a => r = .ok a :=
  fun _ h => checked_eq_ok.1 h

/-- A token that is a word if it is an identifier. -/
def Token.Spelled (t : Token) : Prop :=
  t.kind = .identifier → ∀ ch ∈ t.text.toList, isWordPart ch = true

namespace Cursor

/-- Every identifier in sight or behind is a word. -/
structure Spelled (c : Cursor) : Prop where
  current : c.current.Spelled
  pending : ∀ t, .ok t ∈ c.pending → t.Spelled

variable {c : Cursor} {α : Type}

theorem endOfFile_spelled (p : Position) : (Token.endOfFile p).Spelled := nofun

theorem advance_spelled (hc : c.Spelled) : Read.Ensures c.advance Spelled := by
  unfold advance
  split
  · exact .ok ⟨endOfFile_spelled _, hc.pending⟩
  · rename_i token rest hp
    refine .ok ⟨hc.pending token (by simp [hp]), fun t ht => hc.pending t ?_⟩
    rw [hp]
    exact List.mem_cons_of_mem _ ht
  · exact .error

theorem take_spelled (hc : c.Spelled) (h : c.current.kind ≠ .endOfFile) :
    Read.Ensures (c.take h) fun t => t.value = c.current ∧ t.rest.Spelled := by
  unfold take
  split
  · rename_i d hd
    exact .ok ⟨rfl, advance_spelled hc d hd⟩
  · exact .error

theorem missing_ensures {kind : Token.Kind} {Q : α → Prop} : Read.Ensures (c.missing kind) Q :=
  .error

theorem unexpected_ensures {Q : α → Prop} : Read.Ensures (c.unexpected : Read α) Q := .error

theorem expect_spelled (hc : c.Spelled) (kind : Token.Kind) :
    Read.Ensures (c.expect kind) fun t => t.value.kind = kind ∧ t.value.Spelled ∧
      t.rest.Spelled := by
  unfold expect
  split
  · exact missing_ensures
  split
  · rename_i h hk
    refine (take_spelled hc h).mono fun t ht => ?_
    rw [ht.1]
    exact ⟨hk, hc.current, ht.2⟩
  · exact missing_ensures

theorem symbol_spelled (hc : c.Spelled) (s : Symbol) :
    Read.Ensures (c.symbol s) fun t => t.rest.Spelled :=
  (expect_spelled hc _).mono fun _ h => h.2.2

theorem keyword_spelled (hc : c.Spelled) (k : Keyword) :
    Read.Ensures (c.keyword k) fun t => t.rest.Spelled :=
  (expect_spelled hc _).mono fun _ h => h.2.2

/-- An identifier is a word. -/
theorem identifier_spelled (hc : c.Spelled) :
    Read.Ensures c.identifier fun t => t.value.value.IsWord ∧ t.rest.Spelled := by
  unfold identifier
  refine .bind (expect_spelled hc _) ?_
  rintro ⟨token, d, hd⟩ ⟨hk, ht, hr⟩
  refine .pure ⟨?_, hr⟩
  exact ht hk

theorem accept_spelled (hc : c.Spelled) (select : Token.Kind → Option α) :
    Read.Ensures (c.accept select) fun o => ∀ t ∈ o,
      select c.current.kind = some t.value.1 ∧ t.value.2 = c.current ∧ t.rest.Spelled := by
  unfold accept
  split
  · exact .ok (by simp)
  split
  · exact .ok (by simp)
  · rename_i h _ a ha
    refine .bind (take_spelled hc h) ?_
    rintro ⟨token, d, hd⟩ ⟨hv, hr⟩
    refine .pure ?_
    intro t ht
    cases ht
    exact ⟨ha, hv, hr⟩

theorem acceptSymbol_spelled (hc : c.Spelled) (s : Symbol) :
    Read.Ensures (c.acceptSymbol s) fun o => ∀ t ∈ o, t.rest.Spelled := by
  unfold acceptSymbol
  refine .bind (accept_spelled hc _) fun o ho => ?_
  rcases o with _ | ⟨⟨_, token⟩, d, hd⟩
  · exact .pure (by simp)
  · refine .pure fun t ht => ?_
    cases ht
    exact (ho _ rfl).2.2

theorem acceptKeyword_spelled (hc : c.Spelled) (k : Keyword) :
    Read.Ensures (c.acceptKeyword k) fun o => ∀ t ∈ o, t.rest.Spelled := by
  unfold acceptKeyword
  refine .bind (accept_spelled hc _) fun o ho => ?_
  rcases o with _ | ⟨⟨_, token⟩, d, hd⟩
  · exact .pure (by simp)
  · refine .pure fun t ht => ?_
    cases ht
    exact (ho _ rfl).2.2

theorem identifiers_spelled {c : Cursor} (hc : c.Spelled) :
    Read.Ensures c.identifiers fun t => (∀ n ∈ t.value, n.value.IsWord) ∧ t.rest.Spelled := by
  unfold identifiers
  refine .bind (identifier_spelled hc) ?_
  rintro ⟨name, c₁, h₁⟩ ⟨hn, hc₁⟩
  refine .bind (acceptSymbol_spelled hc₁ _) fun o ho => ?_
  rcases o with _ | ⟨_, c₂, h₂⟩
  · exact .pure ⟨List.forall_mem_singleton.2 hn, hc₁⟩
  · refine .bind (identifiers_spelled (ho _ rfl)) ?_
    rintro ⟨names, c₃, h₃⟩ ⟨hs, hc₃⟩
    exact .pure ⟨List.forall_mem_cons.2 ⟨hn, hs⟩, hc₃⟩
termination_by c.size

end Cursor

end MiniPascal
