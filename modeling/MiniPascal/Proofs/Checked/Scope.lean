import MiniPascal.Proofs.Checked.Syntax
import MiniPascal.Scope.Stack

/-! What the visible scopes hold, and the context they make. -/

namespace MiniPascal

/-- A name of letters, digits and underscores. -/
def Name.IsWord (n : Name) : Prop := ∀ ch ∈ n.spelling.toList, Token.isWordPart ch = true

theorem Token.toNat_lt_of_isWordPart {ch : Char} (h : isWordPart ch = true) : ch.toNat < 128 := by
  delta isWordPart Char.isAlphanum Char.isAlpha Char.isUpper Char.isLower Char.isDigit at h
  simp only [Bool.or_eq_true, Bool.and_eq_true, decide_eq_true_eq, UInt32.le_iff_toNat_le,
    ge_iff_le] at h
  rcases h with (((⟨-, h⟩ | ⟨-, h⟩) | ⟨-, h⟩) | rfl)
  · exact Nat.lt_of_le_of_lt h (by decide)
  · exact Nat.lt_of_le_of_lt h (by decide)
  · exact Nat.lt_of_le_of_lt h (by decide)
  · decide

theorem Token.isWordPart_toLower {ch : Char} (h : isWordPart ch = true) :
    isWordPart ch.toLower = true := by
  have hall : ∀ n < 128, isWordPart (Char.ofNat n) = true →
      isWordPart (Char.ofNat n).toLower = true := by decide +kernel
  have := hall ch.toNat (toNat_lt_of_isWordPart h)
  rw [Char.ofNat_toNat] at this
  exact this h

theorem Name.IsWord.canonical {n : Name} (h : n.IsWord) :
    ∀ ch ∈ n.canonical.toList, Token.isWordPart ch = true := by
  intro ch hch
  simp only [Name.canonical, String.toList_ofList, List.mem_map] at hch
  obtain ⟨c, hc, rfl⟩ := hch
  exact Token.isWordPart_toLower (h c hc)

theorem Name.IsWord.dot_notMem {n : Name} (h : n.IsWord) : '.' ∉ n.canonical.toList :=
  fun hm => absurd (h.canonical _ hm) (by decide)

/-- A declaration of well-formed types and of constants of 32 bits. -/
def Declaration.Sound : Declaration → Prop
  | .var _ t => t.WellFormed
  | .const _ value => ∃ c p, Constant.Fits c ∧ value = .ofConstant c p
  | .type _ t => t.WellFormed
  | .routine _ => True

namespace Scope

/-- All declarations have the property. -/
def All (P : Declaration → Prop) (s : Scope) : Prop := ∀ e ∈ s.entries, P e.2

/-- All declarations are sound. -/
def Sound (s : Scope) : Prop := s.All Declaration.Sound

theorem get?_mem {s : Scope} {n : Name} {d : Declaration} (h : s.get? n = some d) :
    ∃ m, (m, d) ∈ s.entries ∧ m.canonical = n.canonical := by
  obtain ⟨⟨m, d'⟩, hf, rfl⟩ := Option.map_eq_some_iff.1 h
  have hn : (m == n) = true := by simpa using List.find?_some hf
  exact ⟨m, List.mem_of_find?_eq_some hf, (Name.beq_iff m n).1 hn⟩

theorem mem_vars {s : Scope} {n : Name} {t : Ty} :
    (n, t) ∈ s.vars ↔ ∃ p, (n, .var p t) ∈ s.entries := by
  simp only [vars, List.mem_filterMap, Prod.exists]
  constructor
  · rintro ⟨m, d, hm, h⟩
    split at h
    · rename_i p u
      cases h
      exact ⟨p, hm⟩
    · cases h
  · rintro ⟨p, hp⟩
    exact ⟨n, _, hp, rfl⟩

theorem mem_routines {s : Scope} {n : Name} {r : Routine} :
    (n, r) ∈ s.routines ↔ (n, .routine r) ∈ s.entries := by
  simp only [routines, List.mem_filterMap, Prod.exists]
  constructor
  · rintro ⟨m, d, hm, h⟩
    split at h
    · cases h
      exact hm
    · cases h
  · intro hm
    exact ⟨n, _, hm, rfl⟩

end Scope

namespace Scopes

/-- All visible declarations have the property. -/
structure All (P : Declaration → Prop) (s : Scopes) : Prop where
  globals : s.globals.All P
  levels : ∀ l ∈ s.levels, l.params.All P ∧ l.locals.All P

/-- All visible declarations are sound. -/
def Sound (s : Scopes) : Prop := s.All Declaration.Sound

/-- The variables and routines that names resolve to. -/
def context (s : Scopes) : Context where
  var st n t := ∃ p q, s.lookup ⟨p, n⟩ = .ok ⟨.var q t, st⟩
  routine symbol params returns := ∃ n r, s.lookupRoutine n = .ok r ∧ r.symbol = symbol ∧
    r.paramTypes = params ∧ r.returns = returns

variable {s : Scopes}

theorem level_get?_mem {l : Level} {n : Name} {d : Declaration} (h : l.get? n = some d) :
    ∃ m, ((m, d) ∈ l.locals.entries ∨ (m, d) ∈ l.params.entries) ∧
      m.canonical = n.canonical := by
  unfold Level.get? at h
  split at h
  · rename_i d' hd
    cases h
    obtain ⟨m, hm, hn⟩ := Scope.get?_mem hd
    exact ⟨m, .inl hm, hn⟩
  · obtain ⟨m, hm, hn⟩ := Scope.get?_mem h
    exact ⟨m, .inr hm, hn⟩

/-- A name is found among the globals if no level has it, or in the level with as many routines
around it as the depth tells. -/
theorem find?_cases {n : Name} {d : Declaration} {depth : Nat}
    (h : s.find? n = some (d, depth)) :
    (depth = 0 ∧ (∃ m, (m, d) ∈ s.globals.entries ∧ m.canonical = n.canonical) ∧
      ∀ l ∈ s.levels, l.get? n = none) ∨
    (∃ l ∈ s.levels, (depth = s.depth → s.levels.head? = some l) ∧ depth ≠ 0 ∧
      ∃ m, ((m, d) ∈ l.locals.entries ∨ (m, d) ∈ l.params.entries) ∧
        m.canonical = n.canonical) := by
  -- by induction on the levels, of which the innermost comes first
  have go : ∀ ls, find?.go s n ls = some (d, depth) →
      (depth = 0 ∧ (∃ m, (m, d) ∈ s.globals.entries ∧ m.canonical = n.canonical) ∧
        ∀ l ∈ ls, l.get? n = none) ∨
      (∃ l ∈ ls, (depth = ls.length → ls.head? = some l) ∧ depth ≠ 0 ∧ depth ≤ ls.length ∧
        ∃ m, ((m, d) ∈ l.locals.entries ∨ (m, d) ∈ l.params.entries) ∧
          m.canonical = n.canonical) := by
    intro ls
    induction ls with
    | nil =>
      intro hg
      obtain ⟨d', hd, he⟩ := Option.map_eq_some_iff.1 hg
      cases he
      exact .inl ⟨rfl, Scope.get?_mem hd, List.forall_mem_nil _⟩
    | cons l ls ih =>
      intro hg
      rw [find?.go] at hg
      split at hg
      · rename_i d' hd
        cases hg
        refine .inr ⟨l, List.mem_cons_self, fun _ => rfl, by omega, Nat.le_refl _, ?_⟩
        exact level_get?_mem hd
      · rename_i hl
        rcases ih hg with ⟨h0, hm, hls⟩ | ⟨l', hl', -, h0, hle, hm⟩
        · exact .inl ⟨h0, hm, List.forall_mem_cons.2 ⟨hl, hls⟩⟩
        · refine .inr ⟨l', List.mem_cons_of_mem l hl', fun he => ?_, h0, Nat.le_succ_of_le hle, hm⟩
          rw [List.length_cons] at he
          omega
  rcases go s.levels h with h | ⟨l, hl, hd, h0, -, hm⟩
  · exact .inl h
  · exact .inr ⟨l, hl, hd, h0, hm⟩

/-- What a name resolves to has the property of all visible declarations. -/
theorem All.lookup {P : Declaration → Prop} (hs : s.All P) {n : Located Name} {d : Declaration}
    {st : Storage} (h : s.lookup n = .ok ⟨d, st⟩) : P d := by
  unfold Scopes.lookup at h
  split at h
  · cases h
  · rename_i d' depth hf
    split at h
    · cases h
    · cases h
      rcases find?_cases hf with ⟨-, ⟨m, hm, -⟩, -⟩ | ⟨l, hl, -, -, m, hm | hm, -⟩
      · exact hs.globals _ hm
      · exact (hs.levels l hl).2 _ hm
      · exact (hs.levels l hl).1 _ hm

/-- A variable in reach belongs to the main program, and no routine around declares its name, or it
belongs to the innermost routine. -/
theorem context_var_cases {st : Storage} {n : Name} {t : Ty} (h : s.context.var st n t) :
    (st = .global ∧ (∃ m, (m, t) ∈ s.globals.vars ∧ m.canonical = n.canonical) ∧
      ∀ l ∈ s.levels, l.get? n = none) ∨
    (st = .routine ∧ ∃ l ls, s.levels = l :: ls ∧
      ∃ m, ((m, t) ∈ l.locals.vars ∨ (m, t) ∈ l.params.vars) ∧ m.canonical = n.canonical) := by
  obtain ⟨p, q, h⟩ := h
  unfold lookup at h
  split at h
  · cases h
  · rename_i d depth hf
    split at h
    · cases h
    · rename_i hv
      simp only [Except.ok.injEq, Resolved.mk.injEq] at h
      obtain ⟨rfl, rfl⟩ := h
      simp only [isVariable, Bool.true_and, Bool.and_eq_true, decide_eq_true_eq, not_and,
        Decidable.not_not] at hv
      rcases find?_cases hf with ⟨h0, ⟨m, hm, hn⟩, hls⟩ | ⟨l, -, hd, h0, m, hm, hn⟩
      · exact .inl ⟨if_pos h0, ⟨m, Scope.mem_vars.2 ⟨q, hm⟩, hn⟩, hls⟩
      · obtain ⟨ls, hls⟩ := List.head?_eq_some_iff.1 (hd (hv h0))
        refine .inr ⟨if_neg h0, l, ls, hls, m, ?_, hn⟩
        exact hm.imp (fun h => Scope.mem_vars.2 ⟨q, h⟩) fun h => Scope.mem_vars.2 ⟨q, h⟩

end Scopes

end MiniPascal
