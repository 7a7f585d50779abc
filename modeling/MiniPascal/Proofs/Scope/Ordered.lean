import Std.Data.HashMap.Lemmas
import MiniPascal.Proofs.Checked.Stack

/-! Scopes as ordered maps: a table with an index beside its entries answers alike along any history
of operations. -/

namespace MiniPascal

/-- Names that differ in the case of letters only have one hash. -/
instance : Hashable Name := ⟨fun n => hash n.canonical⟩

instance : LawfulHashable Name where
  hash_eq m n h := by
    show hash m.canonical = hash n.canonical
    rw [(Name.beq_iff m n).1 h]

namespace Scope

/-! ### Operations -/

/-- What changes a map of declarations. The map whose entries an update takes over has a history of
its own. -/
inductive Op where
  | insert (n : Name) (d : Declaration)
  | update (other : List Op)
  | replace (n : Name) (d : Declaration)

/-- A way to keep declarations. An operation that is refused says why. -/
structure Store (σ : Type) where
  empty : σ
  insert : σ → Name → Declaration → σ × Option (Located SemanticError)
  update : σ → σ → σ × Option (Located SemanticError)
  replace : σ → Name → Declaration → σ

namespace Store

variable {σ : Type} (S : Store σ)

mutual

/-- What an operation makes of a map, and why it is refused if it is. -/
def apply (s : σ) : Op → σ × Option (Located SemanticError)
  | .insert n d => S.insert s n d
  | .update other => S.update s (runFrom S.empty other)
  | .replace n d => (S.replace s n d, none)

/-- What operations in order make of a map. -/
def runFrom (s : σ) : List Op → σ
  | [] => s
  | op :: ops => runFrom (apply s op).1 ops

end

/-- The map with such a history. -/
def run (ops : List Op) : σ := S.runFrom S.empty ops

theorem runFrom_append (s : σ) (ops more : List Op) :
    S.runFrom s (ops ++ more) = S.runFrom (S.runFrom s ops) more := by
  induction ops generalizing s with
  | nil => rw [List.nil_append, runFrom]
  | cons op ops ih => rw [List.cons_append, runFrom, ih, runFrom]

theorem run_append (ops more : List Op) : S.run (ops ++ more) = S.runFrom (S.run ops) more :=
  S.runFrom_append S.empty ops more

end Store

/-- A scope that refuses an insertion stays as it is. -/
def store : Store Scope where
  empty := .empty
  insert s n d :=
    match s.insert n d with
    | .ok s' => (s', none)
    | .error e => (s, some e)
  update := Scope.update
  replace s n d := s.modify n fun _ => d

/-! ### What the operations do -/

/-- No two names are equal ignoring the case of letters. -/
def Distinct (s : Scope) : Prop := s.names.Pairwise fun m n => m.canonical ≠ n.canonical

/-- The clash of a declaration with one that is there. -/
def clash (n : Name) (d : Declaration) : Located SemanticError :=
  ⟨d.position, .duplicateDeclaration n⟩

/-- What an operation makes of a scope, and the error if it is refused. -/
inductive Effect (s : Scope) : Op → Scope → Option (Located SemanticError) → Prop
  | inserted {n : Name} {d : Declaration} (h : s.contains n = false) :
    Effect s (.insert n d) ⟨s.entries ++ [(n, d)]⟩ none
  | taken {n : Name} {d : Declaration} (h : s.contains n = true) :
    Effect s (.insert n d) s (some (clash n d))
  | updated {other : List Op} (h : ∀ e ∈ (store.run other).entries, s.contains e.1 = false) :
    Effect s (.update other) ⟨s.entries ++ (store.run other).entries⟩ none
  /-- The entries before the first clashing one are taken over. -/
  | clashed {other : List Op} {before behind : List (Name × Declaration)} {n : Name}
    {d : Declaration} (hsplit : (store.run other).entries = before ++ (n, d) :: behind)
    (hbefore : ∀ e ∈ before, s.contains e.1 = false) (hn : s.contains n = true) :
    Effect s (.update other) ⟨s.entries ++ before⟩ (some (clash n d))
  | absent {n : Name} {d : Declaration} (h : s.contains n = false) :
    Effect s (.replace n d) s none
  /-- The entry keeps its place and the spelling of its name. -/
  | replaced {m n : Name} {d d' : Declaration} {before behind : List (Name × Declaration)}
    (hsplit : s.entries = before ++ (m, d') :: behind) (hn : m.canonical = n.canonical) :
    Effect s (.replace n d) ⟨before ++ (m, d) :: behind⟩ none

variable {s s' : Scope} {m n : Name} {d : Declaration} {entries : List (Name × Declaration)}

theorem distinct_iff : s.Distinct ↔ (s.entries.map fun e => e.1.canonical).Nodup := by
  unfold Distinct names
  rw [List.Nodup, List.pairwise_map, List.pairwise_map]

theorem contains_eq_true : s.contains n = true ↔ ∃ m ∈ s.names, m.canonical = n.canonical := by
  simp only [contains, names, List.any_eq_true, Name.beq_iff, List.mem_map,
    exists_exists_and_eq_and]

theorem contains_push : (⟨s.entries ++ [(m, d)]⟩ : Scope).contains n =
    (s.contains n || m == n) := by
  simp only [contains, List.any_append, List.any_cons, List.any_nil, Bool.or_false]

theorem insert_of_contains (h : s.contains n = true) : s.insert n d = .error (clash n d) := by
  rw [insert, if_pos h]
  rfl

theorem insert_of_not_contains (h : s.contains n = false) :
    s.insert n d = .ok ⟨s.entries ++ [(n, d)]⟩ := by
  rw [insert, if_neg (Bool.eq_false_iff.1 h)]

theorem store_insert_of_contains (h : s.contains n = true) :
    store.insert s n d = (s, some (clash n d)) := by
  show (match s.insert n d with
    | .ok s' => (s', none)
    | .error e => (s, some e)) = _
  rw [insert_of_contains h]

theorem store_insert_of_not_contains (h : s.contains n = false) :
    store.insert s n d = (⟨s.entries ++ [(n, d)]⟩, none) := by
  show (match s.insert n d with
    | .ok s' => (s', none)
    | .error e => (s, some e)) = _
  rw [insert_of_not_contains h]

/-- A name stands for the one entry that has it. -/
theorem Distinct.get?_iff (h : s.Distinct) :
    s.get? n = some d ↔ ∃ m, (m, d) ∈ s.entries ∧ m.canonical = n.canonical := by
  constructor
  · exact get?_mem
  · rintro ⟨m, hm, hmn⟩
    rw [← get?_congr ((Name.beq_iff m n).2 hmn)]
    exact get?_of_mem (distinct_iff.1 h) hm

theorem Distinct.insert (hs : s.Distinct) (h : s.insert n d = .ok s') : s'.Distinct := by
  obtain ⟨hc, rfl⟩ := insert_eq_ok h
  exact distinct_iff.2 (nodup_snoc (distinct_iff.1 hs) hc)

theorem Distinct.insertAll (hs : s.Distinct) (entries : List (Name × Declaration)) :
    (s.insertAll entries).1.Distinct := by
  induction entries generalizing s with
  | nil => exact hs
  | cons e entries ih =>
    rw [Scope.insertAll]
    split
    · rename_i s' hi
      exact ih (hs.insert hi)
    · exact hs

theorem modify_of_not_contains (h : s.contains n = false) (f : Declaration → Declaration) :
    s.modify n f = s := by
  obtain ⟨entries⟩ := s
  exact modify_eq_self (contains_eq_false.1 h) f

theorem names_modify (s : Scope) (n : Name) (f : Declaration → Declaration) :
    (s.modify n f).names = s.names := by
  simp only [names, modify, List.map_map]
  apply List.map_congr_left
  intro e _
  dsimp only [Function.comp_apply]
  split <;> rfl

/-- Declarations are taken over up to the first whose name is there. -/
theorem insertAll_cases (s : Scope) (hd : (entries.map fun e => e.1.canonical).Nodup) :
    (∀ e ∈ entries, s.contains e.1 = false) ∧
      s.insertAll entries = (⟨s.entries ++ entries⟩, none) ∨
    ∃ before n d behind, entries = before ++ (n, d) :: behind ∧
      (∀ e ∈ before, s.contains e.1 = false) ∧ s.contains n = true ∧
      s.insertAll entries = (⟨s.entries ++ before⟩, some (clash n d)) := by
  induction entries generalizing s with
  | nil =>
    left
    refine ⟨List.forall_mem_nil _, ?_⟩
    obtain ⟨before⟩ := s
    rw [insertAll, List.append_nil]
  | cons e entries ih =>
    obtain ⟨n, d⟩ := e
    rw [List.map_cons, List.nodup_cons] at hd
    obtain ⟨hfresh, hd⟩ := hd
    rw [insertAll]
    cases hc : s.contains n with
    | true =>
      rw [insert_of_contains hc]
      right
      refine ⟨[], n, d, entries, rfl, List.forall_mem_nil _, hc, ?_⟩
      obtain ⟨before⟩ := s
      rw [List.append_nil]
    | false =>
      rw [insert_of_not_contains hc]
      dsimp only
      -- the names behind differ from this one, so they clash with the same entries as before it
      have hsame : ∀ e ∈ entries,
          (⟨s.entries ++ [(n, d)]⟩ : Scope).contains e.1 = s.contains e.1 := by
        intro e he
        have hne : (n == e.1) = false := by
          rw [Bool.eq_false_iff, Ne, Name.beq_iff]
          intro hname
          exact hfresh (List.mem_map.2 ⟨e, he, hname.symm⟩)
        rw [contains_push, hne, Bool.or_false]
      rcases ih ⟨s.entries ++ [(n, d)]⟩ hd with ⟨hfree, hall⟩ | ⟨before, m, d', behind, hsplit, hb,
        hm, hall⟩
      · left
        constructor
        · rintro e (_ | ⟨_, he⟩)
          · exact hc
          · rw [← hsame e he]
            exact hfree e he
        · rw [hall, List.append_assoc, List.singleton_append]
      · right
        have hmem : ∀ e ∈ before, e ∈ entries := by
          intro e he
          rw [hsplit]
          exact List.mem_append_left _ he
        have hmentry : (m, d') ∈ entries := by
          rw [hsplit]
          exact List.mem_append_right _ List.mem_cons_self
        refine ⟨(n, d) :: before, m, d', behind, by rw [hsplit, List.cons_append], ?_, ?_, ?_⟩
        · rintro e (_ | ⟨_, he⟩)
          · exact hc
          · rw [← hsame e (hmem e he)]
            exact hb e he
        · rw [← hsame (m, d') hmentry]
          exact hm
        · rw [hall, List.append_assoc, List.singleton_append]

theorem Distinct.replace (hs : s.Distinct) (n : Name) (f : Declaration → Declaration) :
    (s.modify n f).Distinct := by
  unfold Distinct
  rw [names_modify]
  exact hs

theorem Distinct.apply (hs : s.Distinct) (op : Op) : (store.apply s op).1.Distinct := by
  cases op with
  | insert n d =>
    rw [Store.apply]
    cases hc : s.contains n with
    | true =>
      rw [store_insert_of_contains hc]
      exact hs
    | false =>
      rw [store_insert_of_not_contains hc]
      exact hs.insert (insert_of_not_contains hc)
  | update other =>
    rw [Store.apply]
    exact hs.insertAll _
  | replace n d =>
    rw [Store.apply]
    exact hs.replace n _

theorem Distinct.runFrom (hs : s.Distinct) (ops : List Op) : (store.runFrom s ops).Distinct := by
  induction ops generalizing s with
  | nil =>
    rw [Store.runFrom]
    exact hs
  | cons op ops ih =>
    rw [Store.runFrom]
    exact ih (hs.apply op)

theorem run_distinct (ops : List Op) : (store.run ops).Distinct :=
  Distinct.runFrom (s := .empty) List.Pairwise.nil ops

/-- What an operation does is what its effect says. -/
theorem Distinct.effect (hs : s.Distinct) (op : Op) :
    Effect s op (store.apply s op).1 (store.apply s op).2 := by
  cases op with
  | insert n d =>
    rw [Store.apply]
    cases hc : s.contains n with
    | true =>
      rw [store_insert_of_contains hc]
      exact .taken hc
    | false =>
      rw [store_insert_of_not_contains hc]
      exact .inserted hc
  | update other =>
    rw [Store.apply]
    show Effect s _ (s.insertAll (store.run other).entries).1
      (s.insertAll (store.run other).entries).2
    -- the entries go in one by one, up to the first whose name is there
    rcases s.insertAll_cases (distinct_iff.1 (run_distinct other)) with
      ⟨hfree, hall⟩ | ⟨before, n, d, behind, hsplit, hbefore, hn, hall⟩
    · rw [hall]
      exact .updated hfree
    · rw [hall]
      exact .clashed hsplit hbefore hn
  | replace n d =>
    rw [Store.apply]
    show Effect s _ (s.modify n fun _ => d) none
    cases hc : s.contains n with
    | false =>
      rw [modify_of_not_contains hc]
      exact .absent hc
    | true =>
      obtain ⟨m, hm, hmn⟩ := contains_eq_true.1 hc
      obtain ⟨⟨m, d'⟩, he, rfl⟩ := List.mem_map.1 hm
      -- names differ, so only the entry found is replaced
      obtain ⟨before, behind, hsplit⟩ := List.append_of_mem he
      rw [modify_split (distinct_iff.1 hs) hsplit hmn]
      exact .replaced hsplit hmn

/-- Names keep their places, and new ones come behind them. -/
theorem Effect.names_stay {op : Op} {e : Option (Located SemanticError)}
    (h : Effect s op s' e) : s.names <+: s'.names := by
  cases h with
  | inserted | updated | clashed =>
    unfold names
    rw [List.map_append]
    exact List.prefix_append _ _
  | taken | absent => exact List.prefix_rfl
  | @replaced m n d d' before behind hsplit hn =>
    have hnames : s.names = (⟨before ++ (m, d) :: behind⟩ : Scope).names := by
      unfold names
      rw [hsplit, List.map_append, List.map_append, List.map_cons, List.map_cons]
    exact ⟨[], (List.append_nil _).trans hnames⟩

theorem Distinct.names_stay (hs : s.Distinct) (ops : List Op) :
    s.names <+: (store.runFrom s ops).names := by
  induction ops generalizing s with
  | nil =>
    have hsame : store.runFrom s [] = s := by rw [Store.runFrom]
    exact ⟨[], (List.append_nil _).trans (congrArg names hsame.symm)⟩
  | cons op ops ih =>
    rw [Store.runFrom]
    exact (hs.effect op).names_stay.trans (ih (hs.apply op))

end Scope

/-! ### The index -/

/-- Declarations in the order in which they were made, and where each name stands among them. -/
structure Table where
  entries : List (Name × Declaration)
  index : Std.HashMap Name Nat

namespace Table

def empty : Table := ⟨[], ∅⟩

def contains (t : Table) (n : Name) : Bool := t.index.contains n

/-- What a name is declared as, at the place that the index gives. -/
def get? (t : Table) (n : Name) : Option Declaration :=
  (t.index[n]?).bind fun i => (t.entries[i]?).map Prod.snd

/-- Puts a declaration behind all others and its place into the index. -/
def insert (t : Table) (n : Name) (d : Declaration) : Table × Option (Located SemanticError) :=
  if t.contains n then (t, some (Scope.clash n d))
  else (⟨t.entries ++ [(n, d)], t.index.insert n t.entries.length⟩, none)

/-- Inserts declarations in order up to the first that is refused. -/
def insertAll (t : Table) :
    List (Name × Declaration) → Table × Option (Located SemanticError)
  | [] => (t, none)
  | (n, d) :: entries =>
    match t.insert n d with
    | (t', none) => insertAll t' entries
    | (t', some e) => (t', some e)

/-- Puts another declaration at the place that the index gives. -/
def replace (t : Table) (n : Name) (d : Declaration) : Table :=
  match t.index[n]? with
  | none => t
  | some i => { t with entries := t.entries.modify i fun e => (e.1, d) }

def store : Scope.Store Table where
  empty := .empty
  insert := insert
  update t other := t.insertAll other.entries
  replace := replace

/-- The index tells where a name stands, and nothing else. -/
def Indexed (t : Table) : Prop :=
  ∀ (n : Name) (i : Nat), t.index[n]? = some i ↔
    ∃ e : Name × Declaration, t.entries[i]? = some e ∧ e.1.canonical = n.canonical

/-- The table has the entries of the scope, and its index is right. -/
structure InStep (t : Table) (s : Scope) : Prop where
  entries : t.entries = s.entries
  indexed : t.Indexed

variable {t : Table} {s : Scope} {n : Name} {d : Declaration}

theorem empty_inStep : InStep .empty .empty := by
  refine ⟨rfl, ?_⟩
  intro n i
  simp [empty]

theorem Indexed.contains_iff (h : t.Indexed) :
    t.contains n = true ↔ ∃ e ∈ t.entries, e.1.canonical = n.canonical := by
  rw [contains, Std.HashMap.contains_eq_isSome_getElem?, Option.isSome_iff_exists]
  constructor
  · rintro ⟨i, hi⟩
    obtain ⟨e, he, hn⟩ := (h n i).1 hi
    exact ⟨e, List.mem_of_getElem? he, hn⟩
  · rintro ⟨e, he, hn⟩
    obtain ⟨i, hi⟩ := List.getElem?_of_mem he
    exact ⟨i, (h n i).2 ⟨e, hi, hn⟩⟩

theorem InStep.contains_eq (h : InStep t s) (n : Name) : t.contains n = s.contains n := by
  rw [Bool.eq_iff_iff, h.indexed.contains_iff, h.entries, Scope.contains_eq_true, Scope.names]
  simp only [List.mem_map, exists_exists_and_eq_and]

theorem InStep.contains_eq_false (h : InStep t s) (hi : t.index[n]? = none) :
    s.contains n = false := by
  rw [← h.contains_eq, contains, Std.HashMap.contains_eq_isSome_getElem?, hi]
  rfl

theorem InStep.get?_eq (h : InStep t s) (hs : s.Distinct) (n : Name) : t.get? n = s.get? n := by
  unfold get?
  cases hi : t.index[n]? with
  | none =>
    rw [Scope.get?_eq_none.2 (h.contains_eq_false hi)]
    rfl
  | some i =>
    obtain ⟨⟨m, d⟩, he, hn⟩ := (h.indexed n i).1 hi
    have hmem : (m, d) ∈ s.entries := h.entries ▸ List.mem_of_getElem? he
    rw [hs.get?_iff.2 ⟨m, hmem, hn⟩, Option.bind_some, he]
    rfl

/-- A place among entries with one more behind them. -/
theorem getElem?_push {entries : List (Name × Declaration)} {e e' : Name × Declaration} {i : Nat} :
    (entries ++ [e])[i]? = some e' ↔
      entries[i]? = some e' ∨ i = entries.length ∧ e = e' := by
  rw [List.getElem?_append]
  split
  · rename_i hi
    constructor
    · exact .inl
    · rintro (he | ⟨rfl, -⟩)
      · exact he
      · exact absurd hi (Nat.lt_irrefl _)
  · rename_i hi
    rw [List.getElem?_eq_none (Nat.le_of_not_lt hi), List.getElem?_singleton]
    constructor
    · intro he
      split at he
      · rename_i hzero
        exact .inr ⟨by omega, Option.some.inj he⟩
      · cases he
    · rintro (he | ⟨rfl, rfl⟩)
      · cases he
      · rw [Nat.sub_self, if_pos rfl]

theorem Indexed.push (h : t.Indexed) (hc : t.contains n = false) :
    Indexed ⟨t.entries ++ [(n, d)], t.index.insert n t.entries.length⟩ := by
  -- the name is new, so no entry before has it
  have hfresh : ∀ (i : Nat) (e : Name × Declaration), t.entries[i]? = some e →
      e.1.canonical ≠ n.canonical := by
    intro i e he hn
    rw [h.contains_iff.2 ⟨e, List.mem_of_getElem? he, hn⟩] at hc
    cases hc
  intro m i
  show (t.index.insert n t.entries.length)[m]? = some i ↔ _
  rw [Std.HashMap.getElem?_insert]
  simp only [getElem?_push]
  split
  · rename_i hnm
    have hnm := (Name.beq_iff n m).1 hnm
    constructor
    · intro hi
      exact ⟨(n, d), .inr ⟨(Option.some.inj hi).symm, rfl⟩, hnm⟩
    · rintro ⟨e, he | ⟨rfl, rfl⟩, hm⟩
      · exact absurd (hm.trans hnm.symm) (hfresh i e he)
      · rfl
  · rename_i hnm
    rw [h m i]
    constructor
    · rintro ⟨e, he, hm⟩
      exact ⟨e, .inl he, hm⟩
    · rintro ⟨e, he | ⟨rfl, rfl⟩, hm⟩
      · exact ⟨e, he, hm⟩
      · exact absurd ((Name.beq_iff n m).2 hm) hnm

/-- A declaration of a new name goes behind all others, and the index tells its place. -/
theorem InStep.push (h : InStep t s) (hc : s.contains n = false) (d : Declaration) :
    InStep ⟨t.entries ++ [(n, d)], t.index.insert n t.entries.length⟩
      ⟨s.entries ++ [(n, d)]⟩ where
  entries := by
    show t.entries ++ [(n, d)] = s.entries ++ [(n, d)]
    rw [h.entries]
  indexed := by
    apply h.indexed.push
    rw [h.contains_eq, hc]

theorem InStep.insert_of_contains (h : InStep t s) (hc : s.contains n = true) (d : Declaration) :
    t.insert n d = (t, some (Scope.clash n d)) := by
  rw [Table.insert, if_pos ((h.contains_eq n).trans hc)]

theorem InStep.insert_of_not_contains (h : InStep t s) (hc : s.contains n = false)
    (d : Declaration) : t.insert n d =
      (⟨t.entries ++ [(n, d)], t.index.insert n t.entries.length⟩, none) := by
  rw [Table.insert, h.contains_eq, hc, if_neg Bool.false_ne_true]

theorem InStep.insert (h : InStep t s) (n : Name) (d : Declaration) :
    (t.insert n d).2 = (Scope.store.insert s n d).2 ∧
      InStep (t.insert n d).1 (Scope.store.insert s n d).1 := by
  cases hc : s.contains n with
  | true =>
    rw [h.insert_of_contains hc, Scope.store_insert_of_contains hc]
    exact ⟨rfl, h⟩
  | false =>
    rw [h.insert_of_not_contains hc, Scope.store_insert_of_not_contains hc]
    exact ⟨rfl, h.push hc d⟩

theorem InStep.insertAll (h : InStep t s) (entries : List (Name × Declaration)) :
    (t.insertAll entries).2 = (s.insertAll entries).2 ∧
      InStep (t.insertAll entries).1 (s.insertAll entries).1 := by
  induction entries generalizing t s with
  | nil => exact ⟨rfl, h⟩
  | cons e entries ih =>
    obtain ⟨n, d⟩ := e
    rw [insertAll, Scope.insertAll]
    cases hc : s.contains n with
    | true =>
      rw [h.insert_of_contains hc, Scope.insert_of_contains hc]
      exact ⟨rfl, h⟩
    | false =>
      rw [h.insert_of_not_contains hc, Scope.insert_of_not_contains hc]
      exact ih (h.push hc d)

/-- The index gives one place only, so what changes there is the entry of the name. -/
theorem InStep.modify_entries (h : InStep t s) {i : Nat} (hi : t.index[n]? = some i)
    (d : Declaration) :
    (t.entries.modify i fun e => (e.1, d)) = (s.modify n fun _ => d).entries := by
  apply List.ext_getElem?
  intro j
  rw [Scope.modify, List.getElem?_modify, List.getElem?_map, ← h.entries]
  cases hj : t.entries[j]? with
  | none => rfl
  | some e =>
    show some (if i = j then (e.1, d) else e) = some (if e.1 == n then (e.1, d) else e)
    have hplace : i = j ↔ (e.1 == n) = true := by
      rw [Name.beq_iff]
      constructor
      · rintro rfl
        obtain ⟨e', he', hn⟩ := (h.indexed n i).1 hi
        rw [hj, Option.some.injEq] at he'
        rw [he', hn]
      · intro hn
        have hj' := (h.indexed n j).2 ⟨e, hj, hn⟩
        rw [hi] at hj'
        exact Option.some.inj hj'
    rw [if_congr hplace rfl rfl]

/-- The names stay where they are, so the index is still right. -/
theorem Indexed.modify (h : t.Indexed) (i : Nat) (d : Declaration) :
    Indexed { t with entries := t.entries.modify i fun e => (e.1, d) } := by
  intro m j
  show t.index[m]? = some j ↔ _
  rw [h m j]
  simp only [List.getElem?_modify]
  cases hj : t.entries[j]? with
  | none => simp
  | some e =>
    by_cases hij : i = j <;> simp [hij]

theorem InStep.replace (h : InStep t s) (n : Name) (d : Declaration) :
    InStep (t.replace n d) (s.modify n fun _ => d) := by
  unfold Table.replace
  cases hi : t.index[n]? with
  | none =>
    rw [Scope.modify_of_not_contains (h.contains_eq_false hi)]
    exact h
  | some i => exact ⟨h.modify_entries hi d, h.indexed.modify i d⟩

mutual

/-- An operation is refused by both for the same reason or by neither, and keeps them in step. -/
theorem InStep.apply {t : Table} {s : Scope} (h : InStep t s) :
    ∀ op : Scope.Op, (store.apply t op).2 = (Scope.store.apply s op).2 ∧
      InStep (store.apply t op).1 (Scope.store.apply s op).1
  | .insert n d => by
    rw [Scope.Store.apply, Scope.Store.apply]
    exact h.insert n d
  | .update other => by
    have hother : InStep (store.runFrom .empty other) (Scope.store.runFrom .empty other) :=
      InStep.runFrom empty_inStep other
    rw [Scope.Store.apply, Scope.Store.apply]
    show (t.insertAll (store.runFrom .empty other).entries).2 =
        (s.insertAll (Scope.store.runFrom .empty other).entries).2 ∧
      InStep (t.insertAll (store.runFrom .empty other).entries).1
        (s.insertAll (Scope.store.runFrom .empty other).entries).1
    rw [hother.entries]
    exact h.insertAll _
  | .replace n d => by
    rw [Scope.Store.apply, Scope.Store.apply]
    exact ⟨rfl, h.replace n d⟩

theorem InStep.runFrom {t : Table} {s : Scope} (h : InStep t s) :
    ∀ ops : List Scope.Op, InStep (store.runFrom t ops) (Scope.store.runFrom s ops)
  | [] => by
    rw [Scope.Store.runFrom, Scope.Store.runFrom]
    exact h
  | op :: ops => by
    rw [Scope.Store.runFrom, Scope.Store.runFrom]
    exact InStep.runFrom (InStep.apply h op).2 ops

end

end Table

namespace Scope

/-- A scope with any history is a map in the order of first insertion. No two of its names are equal
ignoring the case of letters, and a name finds the entry that has it. Whatever is done next has its
effect and no other: an insertion of a name that is there is refused and changes nothing, and an
update that is refused has taken over the entries before the first clashing one. Names that are
there stay where they are, in front of all later ones. A table with an index and the same history
has the same entries, finds the same, and refuses the same for the same reasons. -/
theorem after_ordered (ops : List Op) :
    (store.run ops).Distinct ∧
    (∀ n, (store.run ops).contains n = true ↔
      ∃ m ∈ (store.run ops).names, m.canonical = n.canonical) ∧
    (∀ n d, (store.run ops).get? n = some d ↔
      ∃ m, (m, d) ∈ (store.run ops).entries ∧ m.canonical = n.canonical) ∧
    (∀ op, Effect (store.run ops) op (store.apply (store.run ops) op).1
      (store.apply (store.run ops) op).2) ∧
    (∀ more, (store.run ops).names <+: (store.run (ops ++ more)).names) ∧
    (Table.store.run ops).entries = (store.run ops).entries ∧
    (∀ n, (Table.store.run ops).contains n = (store.run ops).contains n ∧
      (Table.store.run ops).get? n = (store.run ops).get? n) ∧
    ∀ op, (Table.store.apply (Table.store.run ops) op).2 =
      (store.apply (store.run ops) op).2 := by
  have hdistinct := run_distinct ops
  have hstep : Table.InStep (Table.store.run ops) (store.run ops) :=
    Table.InStep.runFrom Table.empty_inStep ops
  refine ⟨hdistinct, fun n => contains_eq_true, fun n d => hdistinct.get?_iff,
    hdistinct.effect, ?_, hstep.entries, ?_, ?_⟩
  · intro more
    rw [Store.run_append]
    exact hdistinct.names_stay more
  · intro n
    exact ⟨hstep.contains_eq n, hstep.get?_eq hdistinct n⟩
  · intro op
    exact (hstep.apply op).1

end Scope

end MiniPascal
