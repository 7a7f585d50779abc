import MiniPascal.Grammar.TypeName
import MiniPascal.Proofs.Phrase.Expression

/-! Arrays of several dimensions are arrays of arrays. -/

namespace MiniPascal

open Grammar Token Cursor Read
open Cursor.Within

/-! ### The two notations -/

namespace Token

/-- Parts with commas between them. -/
def listed (parts : List (List Token)) : List Token := [ofSymbol .comma].intercalate parts

/-- The range between two bounds. -/
def between (r : List Token × List Token) : List Token := r.1 ++ ofSymbol .doubleDot :: r.2

/-- What follows the ranges of an array type. -/
def arrayEnd : List Token := [ofSymbol .closeSquare, ofKeyword .kwOf]

/-- An array type without the type of its elements, with its ranges in one pair of brackets. -/
def arrayOf (rs : List (List Token × List Token)) : List Token :=
  ofKeyword .kwArray :: ofSymbol .openSquare :: (listed (rs.map between) ++ arrayEnd)

/-- The same with an array type for each of the ranges. -/
def arraysOf (rs : List (List Token × List Token)) : List Token := rs.flatMap fun r => arrayOf [r]

/-- Indices in one pair of brackets. -/
def subscript (es : List (List Token)) : List Token :=
  ofSymbol .openSquare :: (listed es ++ [ofSymbol .closeSquare])

/-- The same with a pair of brackets for each of the indices. -/
def subscripts (es : List (List Token)) : List Token := es.flatMap fun e => subscript [e]

theorem listed_singleton (p : List Token) : listed [p] = p := List.intercalate_singleton

theorem listed_cons (p q : List Token) (ps : List (List Token)) :
    listed (p :: q :: ps) = p ++ ofSymbol .comma :: listed (q :: ps) := by
  rw [listed, List.intercalate_cons_cons, List.append_assoc]
  rfl

end Token

/-! ### Ranges -/

variable {s : Scopes} {c c' d k k' : Cursor}

/-- A symbol behind a phrase is there on both sides, or something else is. -/
theorem Cursor.Within.symbol_behind {x : Symbol} {R : Cursor → Cursor → Prop}
    (h : Within (k.push (ofSymbol x)) (k'.push (ofSymbol x)) 0 c c')
    (hx : Kind.isForeign (.symbol x) = true) (hR : R k k') :
    Alike (Taken.Beside R) (c.symbol x) (c'.symbol x) := by
  obtain ⟨t, ts, hts, rfl, rfl⟩ | ⟨-, rfl, rfl⟩ := h.cases
  · have ht := kind_ne_of_isPhrase hts hx
    rw [Cursor.symbol, Cursor.symbol, expect_missing (.inl ht), expect_missing (.inl ht)]
    exact .error rfl
  · obtain ⟨_, hx, hlt, rfl⟩ := symbol_push (c := k) (t := ofSymbol x) rfl
    obtain ⟨_, hy, hlt', rfl⟩ := symbol_push (c := k') (t := ofSymbol x) rfl
    rw [hx, hy]
    exact .ok ⟨rfl, hR⟩

theorem range_within {r : List Token × List Token}
    (hr : isPhrase 0 r.1 = true ∧ isPhrase 0 r.2 = true) (hk : k.Ends k' 0) :
    Alike (Taken.Beside (Within k k' 0)) (range s (k.behind (between r)))
      (range s (k'.behind (between r))) := by
  unfold range
  rw [between, behind_append, behind_append, behind_cons, behind_cons]
  have hdots : ((k.behind r.2).push (ofSymbol .doubleDot)).Ends
      ((k'.behind r.2).push (ofSymbol .doubleDot)) 0 := fun _ => ⟨rfl, rfl⟩
  refine .taken (expression_within hdots ⟨r.1, hr.1, rfl, rfl⟩) fun low d d' hd hd' hrest => ?_
  refine .same (boundOf low) fun low => ?_
  refine .taken (hrest.symbol_behind (R := Within k k' 0) rfl ⟨r.2, hr.2, rfl, rfl⟩)
    fun _ d₂ d₂' hd₂ hd₂' hrest => ?_
  refine .taken (expression_within hk hrest) fun high d₃ d₃' hd₃ hd₃' hrest => ?_
  refine .same (boundOf high) fun high => ?_
  exact .same (checkRange low high) fun _ => .pure ⟨rfl, hrest⟩

/-! ### Commas and brackets -/

/-- Goes on behind a comma, or else behind a closing bracket. -/
def Cursor.nextOrClose {α : Type} (c : Cursor)
    (next : Token → ∀ d : Cursor, d.size < c.size → Read α)
    (close : ∀ d : Cursor, d.size < c.size → Read α) : Read α := do
  match ← c.acceptSymbol .comma with
  | some ⟨t, d, h⟩ => next t d h
  | none =>
    let ⟨_, d, h⟩ ← c.symbol .closeSquare
    close d h

/-- Where a phrase has a comma behind it in one notation, it has a bracket in the other. -/
theorem Cursor.Within.nextOrClose {α β : Type} {Q : α → β → Prop}
    {next : Token → ∀ d : Cursor, d.size < c.size → Read α}
    {close : ∀ d : Cursor, d.size < c.size → Read α}
    {next' : Token → ∀ d : Cursor, d.size < c'.size → Read β}
    {close' : ∀ d : Cursor, d.size < c'.size → Read β}
    (h : Within (k.push (ofSymbol .comma)) (k'.push (ofSymbol .closeSquare)) 0 c c')
    (hQ : ∀ hd hd', Alike Q (next (ofSymbol .comma) k hd) (close' k' hd')) :
    Alike Q (c.nextOrClose next close) (c'.nextOrClose next' close') := by
  unfold Cursor.nextOrClose
  obtain ⟨t, ts, hts, rfl, rfl⟩ | ⟨-, rfl, rfl⟩ := h.cases
  · -- the phrase is not over, so there is neither a comma nor a bracket
    have hcomma : t.kind ≠ .symbol .comma := kind_ne_of_isPhrase hts rfl
    have hclose : t.kind ≠ .symbol .closeSquare := kind_ne_of_isPhrase hts rfl
    rw [acceptSymbol_none hcomma, acceptSymbol_none hcomma]
    show Alike Q (Cursor.symbol _ _ >>= _) (Cursor.symbol _ _ >>= _)
    rw [Cursor.symbol, Cursor.symbol, expect_missing (.inl hclose), expect_missing (.inl hclose)]
    exact .error rfl
  · obtain ⟨_, hx, _, rfl, hlt, rfl⟩ := acceptSymbol_push (c := k) (t := ofSymbol .comma) rfl
    obtain ⟨_, hy, hlt', rfl⟩ := symbol_push (c := k') (t := ofSymbol .closeSquare) rfl
    have hcomma : (k'.push (ofSymbol .closeSquare)).current.kind ≠ .symbol .comma :=
      kind_symbol_ne (by decide)
    rw [hx, acceptSymbol_none hcomma]
    show Alike Q _ (Cursor.symbol _ _ >>= _)
    rw [hy]
    exact hQ hlt hlt'

/-! ### Array types -/

/-- An array type behind its first bracket. -/
def arrayRest (s : Scopes) (c : Cursor) : Read (Taken c Ty) := do
  let ⟨rs, c₁, h₁⟩ ← ranges s c
  let ⟨_, c₂, h₂⟩ ← c₁.symbol .closeSquare
  let ⟨_, c₃, h₃⟩ ← c₂.keyword .kwOf
  let ⟨element, c₄, h₄⟩ ← typeName s c₃
  return Taken.mk (nestArrays rs element) c₄ h₄ |>.after h₃ |>.after h₂ |>.after h₁

theorem typeName_array (s : Scopes) (c : Cursor) {u w : Token} (hu : u.kind = .keyword .kwArray)
    (hw : w.kind = .symbol .openSquare) :
    ∃ h, typeName s ((c.push w).push u) = do
      let ⟨t, d, h₁⟩ ← arrayRest s c
      return Taken.mk t d h₁ |>.after h := by
  obtain ⟨_, hx, _, rfl, hlt, rfl⟩ := acceptKeyword_push (c := c.push w) hu
  obtain ⟨_, hy, hlt', rfl⟩ := symbol_push (c := c) hw
  have hscalar : scalar? ((c.push w).push u).current.kind = none := by
    rw [push_current, hu]
    rfl
  refine ⟨Nat.lt_trans hlt' hlt, ?_⟩
  unfold typeName arrayRest
  rw [accept_none hscalar]
  show (acceptKeyword _ _ >>= _) = _
  rw [hx]
  show (symbol _ _ >>= _) = _
  rw [hy]
  simp only [bind_assoc, pure_bind]
  rfl

/-- One range after the other, each with an array type of its own. -/
theorem arrayRest_eq (s : Scopes) (c : Cursor) :
    arrayRest s c = (do
      let ⟨r, c₁, h₁⟩ ← range s c
      c₁.nextOrClose
        (fun _ c₂ h₂ => do
          let ⟨t, c₃, h₃⟩ ← arrayRest s c₂
          return Taken.mk (.array r.1 r.2 t) c₃ h₃ |>.after h₂ |>.after h₁)
        (fun c₂ h₂ => do
          let ⟨_, c₃, h₃⟩ ← c₂.keyword .kwOf
          let ⟨t, c₄, h₄⟩ ← typeName s c₃
          return Taken.mk (.array r.1 r.2 t) c₄ h₄ |>.after h₃ |>.after h₂ |>.after h₁)) := by
  unfold arrayRest Cursor.nextOrClose
  rw [ranges]
  simp only [bind_assoc]
  refine bind_congr fun r => ?_
  obtain ⟨r, c₁, h₁⟩ := r
  refine bind_congr fun o => ?_
  rcases o with _ | ⟨_, c₂, h₂⟩
  · rfl
  · simp only [bind_assoc, pure_bind]
    rfl

/-- An array type behind the first of its ranges, in the two notations. -/
theorem arrayRest_nests {r : List Token × List Token} {rs : List (List Token × List Token)}
    (hrs : ∀ r' ∈ r :: rs, isPhrase 0 r'.1 = true ∧ isPhrase 0 r'.2 = true) :
    Alike (Taken.Beside Eq)
      (arrayRest s (d.behind (listed (between r :: rs.map between) ++ arrayEnd)))
      (arrayRest s (d.behind (between r ++ (arrayEnd ++ arraysOf rs)))) := by
  induction rs generalizing r with
  | nil =>
    rw [List.map_nil, listed_singleton]
    exact .refl (fun _ => ⟨rfl, rfl⟩) _
  | cons r' rs ih =>
    obtain ⟨hr, hrs⟩ := List.forall_mem_cons.1 hrs
    let flat := d.behind (listed (between r' :: rs.map between) ++ arrayEnd)
    let nested := d.behind (between r' ++ (arrayEnd ++ arraysOf rs))
    have hflat : d.behind (listed (between r :: (r' :: rs).map between) ++ arrayEnd) =
        (flat.push (ofSymbol .comma)).behind (between r) := by
      rw [List.map_cons, listed_cons, List.append_assoc, behind_append]
      rfl
    have hnested : d.behind (between r ++ (arrayEnd ++ arraysOf (r' :: rs))) =
        ((((nested.push (ofSymbol .openSquare)).push (ofKeyword .kwArray)).push
          (ofKeyword .kwOf)).push (ofSymbol .closeSquare)).behind (between r) := by
      rw [behind_append, arraysOf, List.flatMap_cons, arrayOf, List.map_singleton,
        listed_singleton, List.cons_append, List.cons_append, List.append_assoc]
      rfl
    rw [hflat, hnested, arrayRest_eq, arrayRest_eq]
    refine .taken (range_within hr fun _ => ⟨rfl, rfl⟩) fun r d₁ d₁' hd₁ hd₁' hrest => ?_
    refine hrest.nextOrClose fun hd₂ hd₂' => ?_
    -- the comma leads to the next range, the brackets to the next array type
    obtain ⟨_, hof, hlt, rfl⟩ := keyword_push
      (c := (nested.push (ofSymbol .openSquare)).push (ofKeyword .kwArray)) (t := ofKeyword .kwOf)
      rfl
    obtain ⟨hlt', harray⟩ := typeName_array s nested (u := ofKeyword .kwArray)
      (w := ofSymbol .openSquare) rfl rfl
    rw [hof]
    show Alike _ (arrayRest _ _ >>= _) (typeName _ _ >>= _)
    rw [harray, bind_assoc]
    exact .taken (ih hrs) fun t d d' hd hd' hrest => .pure ⟨rfl, hrest⟩

theorem typeName_nests {rs : List (List Token × List Token)}
    (hrs : ∀ r ∈ rs, isPhrase 0 r.1 = true ∧ isPhrase 0 r.2 = true) (hne : rs ≠ []) :
    Alike (Taken.Beside Eq) (typeName s (d.behind (arrayOf rs)))
      (typeName s (d.behind (arraysOf rs))) := by
  cases rs with
  | nil => exact absurd rfl hne
  | cons r rs =>
    have hnested : d.behind (arraysOf (r :: rs)) =
        ((d.behind (between r ++ (arrayEnd ++ arraysOf rs))).push (ofSymbol .openSquare)).push
          (ofKeyword .kwArray) := by
      rw [arraysOf, List.flatMap_cons, arrayOf, List.map_singleton, listed_singleton,
        List.cons_append, List.cons_append, List.append_assoc]
      rfl
    obtain ⟨hlt, hflat⟩ := typeName_array s
      (d.behind (listed (between r :: rs.map between) ++ arrayEnd)) (u := ofKeyword .kwArray)
      (w := ofSymbol .openSquare) rfl rfl
    obtain ⟨hlt', harray⟩ := typeName_array s
      (d.behind (between r ++ (arrayEnd ++ arraysOf rs))) (u := ofKeyword .kwArray)
      (w := ofSymbol .openSquare) rfl rfl
    rw [hnested, harray, arrayOf, List.map_cons, behind_cons, behind_cons, hflat]
    exact .taken (arrayRest_nests hrs) fun t d d' hd hd' hrest => .pure ⟨rfl, hrest⟩

/-! ### Indices -/

variable {v : Expr} {name : Located Name} {ss : List Token} {es : List (List Token)}

/-- Selectors behind their first bracket. -/
def indexRest (s : Scopes) (v : Expr) (p : Position) (c : Cursor) : Read (Taken c Expr) := do
  let ⟨e, c₁, h₁⟩ ← indices s v p c
  let ⟨_, c₂, h₂⟩ ← c₁.symbol .closeSquare
  let ⟨e, c₃, h₃⟩ ← selectors s e c₂
  return Passed.mk e c₃ h₃ |>.after h₂ |>.after h₁

theorem selectors_square (s : Scopes) (v : Expr) (c : Cursor) {w : Token}
    (hw : w.kind = .symbol .openSquare) :
    ∃ h, selectors s v (c.push w) = do
      let ⟨e, d, h₁⟩ ← indexRest s v w.position c
      return Taken.mk e d h₁ |>.after h |>.passed := by
  obtain ⟨_, hx, _, rfl, hlt, rfl⟩ := acceptSymbol_push (c := c) hw
  refine ⟨hlt, ?_⟩
  unfold selectors indexRest
  rw [hx]
  simp only [bind_assoc, pure_bind]
  rfl

/-- One index after the other, each with a pair of brackets of its own. -/
theorem indexRest_eq (s : Scopes) (v : Expr) (p : Position) (c : Cursor) :
    indexRest s v p c = (do
      let ⟨i, c₁, h₁⟩ ← expression s c
      let a ← Read.checked (Expr.checkIndex v i p)
      c₁.nextOrClose
        (fun t c₂ h₂ => do
          let ⟨e, c₃, h₃⟩ ← indexRest s a t.position c₂
          return Taken.mk e c₃ h₃ |>.after h₂ |>.after h₁)
        (fun c₂ h₂ => do
          let ⟨e, c₃, h₃⟩ ← selectors s a c₂
          return Passed.mk e c₃ h₃ |>.after h₂ |>.after h₁)) := by
  unfold indexRest Cursor.nextOrClose
  rw [indices]
  simp only [bind_assoc]
  refine bind_congr fun i => ?_
  obtain ⟨i, c₁, h₁⟩ := i
  refine bind_congr fun a => bind_congr fun o => ?_
  rcases o with _ | ⟨_, c₂, h₂⟩
  · rfl
  · simp only [bind_assoc, pure_bind]
    rfl

/-- Selectors behind the first of their indices, in the two notations. -/
theorem indexRest_nests {e : List Token} (hes : ∀ e' ∈ e :: es, isPhrase 0 e' = true) :
    Alike (Taken.Beside Eq)
      (indexRest s v .start (k.behind (listed (e :: es) ++ [ofSymbol .closeSquare])))
      (indexRest s v .start (k.behind (e ++ ofSymbol .closeSquare :: subscripts es))) := by
  induction es generalizing e v with
  | nil =>
    rw [listed_singleton]
    exact .refl (fun _ => ⟨rfl, rfl⟩) _
  | cons e' es ih =>
    obtain ⟨he, hes⟩ := List.forall_mem_cons.1 hes
    let flat := k.behind (listed (e' :: es) ++ [ofSymbol .closeSquare])
    let nested := k.behind (e' ++ ofSymbol .closeSquare :: subscripts es)
    have hflat : k.behind (listed (e :: e' :: es) ++ [ofSymbol .closeSquare]) =
        (flat.push (ofSymbol .comma)).behind e := by
      rw [listed_cons, List.append_assoc, behind_append]
      rfl
    have hnested : k.behind (e ++ ofSymbol .closeSquare :: subscripts (e' :: es)) =
        ((nested.push (ofSymbol .openSquare)).push (ofSymbol .closeSquare)).behind e := by
      rw [behind_append, subscripts, List.flatMap_cons, subscript, listed_singleton,
        List.cons_append, List.append_assoc]
      rfl
    have hends : (flat.push (ofSymbol .comma)).Ends
      ((nested.push (ofSymbol .openSquare)).push (ofSymbol .closeSquare)) 0 := fun _ => ⟨rfl, rfl⟩
    rw [hflat, hnested, indexRest_eq, indexRest_eq]
    refine .taken (expression_within hends ⟨e, he, rfl, rfl⟩) fun i d₁ d₁' hd₁ hd₁' hrest => ?_
    refine .same _ fun a => ?_
    refine hrest.nextOrClose fun hd₂ hd₂' => ?_
    -- the comma leads to the next index, the brackets to the next selector
    obtain ⟨hlt, hsquare⟩ := selectors_square s a nested (w := ofSymbol .openSquare) rfl
    rw [hsquare, bind_assoc]
    exact .taken (ih hes) fun e d d' hd hd' hrest => .pure ⟨rfl, hrest⟩

theorem selectors_nests (hes : ∀ e ∈ es, isPhrase 0 e = true) (hne : es ≠ []) :
    Alike (Passed.Beside Eq) (selectors s v (k.behind (subscript es)))
      (selectors s v (k.behind (subscripts es))) := by
  cases es with
  | nil => exact absurd rfl hne
  | cons e es =>
    have hnested : k.behind (subscripts (e :: es)) =
        (k.behind (e ++ ofSymbol .closeSquare :: subscripts es)).push (ofSymbol .openSquare) := by
      rw [subscripts, List.flatMap_cons, subscript, listed_singleton, List.cons_append,
        List.append_assoc]
      rfl
    obtain ⟨hlt, hflat⟩ := selectors_square s v
      (k.behind (listed (e :: es) ++ [ofSymbol .closeSquare])) (w := ofSymbol .openSquare) rfl
    obtain ⟨hlt', hsquare⟩ := selectors_square s v
      (k.behind (e ++ ofSymbol .closeSquare :: subscripts es)) (w := ofSymbol .openSquare) rfl
    rw [hnested, hsquare, subscript, behind_cons, hflat]
    exact .taken (indexRest_nests hes) fun e d d' hd hd' hrest => .pure ⟨rfl, hrest⟩

/-- The same cursor, or two in front of a third. -/
def Cursor.Meets (k c c' : Cursor) : Prop := c = c' ∨ k.size < c.size ∧ k.size < c'.size

theorem kinds_subscript (hes : ∀ e ∈ es, isPhrase 0 e = true) :
    ∀ t ∈ subscript es, t.kind ≠ .endOfFile := by
  have hlisted : ∀ t ∈ listed es, t.kind ≠ .endOfFile := by
    induction es with
    | nil => exact List.forall_mem_nil _
    | cons e es ih =>
      obtain ⟨he, hes⟩ := List.forall_mem_cons.1 hes
      cases es with
      | nil =>
        rw [listed_singleton]
        exact kinds_of_isPhrase he
      | cons e' es =>
        rw [listed_cons]
        exact List.forall_mem_append.2
          ⟨kinds_of_isPhrase he, List.forall_mem_cons.2 ⟨nofun, ih hes⟩⟩
  exact List.forall_mem_cons.2 ⟨nofun, List.forall_mem_append.2
    ⟨hlisted, List.forall_mem_singleton.2 nofun⟩⟩

theorem kinds_subscripts (hes : ∀ e ∈ es, isPhrase 0 e = true) :
    ∀ t ∈ subscripts es, t.kind ≠ .endOfFile := by
  intro t ht
  obtain ⟨e, he, ht⟩ := List.mem_flatMap.1 ht
  exact kinds_subscript (List.forall_mem_singleton.2 (hes e he)) t ht

/-- What is left of the phrase is in front of the indices. -/
theorem meets_behind (hss : isPhrase 0 ss = true) (hes : ∀ e ∈ es, isPhrase 0 e = true)
    (hne : es ≠ []) :
    k.Meets ((k.behind (subscript es)).behind ss) ((k.behind (subscripts es)).behind ss) := by
  have hss := kinds_of_isPhrase hss
  have hsubscripts : subscripts es ≠ [] := by
    cases es with
    | nil => exact absurd rfl hne
    | cons e es => exact List.cons_ne_nil _ _
  rw [← behind_append, ← behind_append]
  refine .inr ⟨size_lt_behind (List.forall_mem_append.2 ⟨hss, kinds_subscript hes⟩) ?_,
    size_lt_behind (List.forall_mem_append.2 ⟨hss, kinds_subscripts hes⟩) ?_⟩
  · exact List.append_ne_nil_of_right_ne_nil _ (List.cons_ne_nil _ _)
  · exact List.append_ne_nil_of_right_ne_nil _ hsubscripts

theorem current_subscripts (hne : es ≠ []) :
    (k.behind (subscripts es)).current.kind = .symbol .openSquare := by
  cases es with
  | nil => exact absurd rfl hne
  | cons e es => rfl

/-- Selectors in front of the indices are read alike, and then the indices are. -/
theorem selectors_subscripts (hss : isPhrase 0 ss = true) (hes : ∀ e ∈ es, isPhrase 0 e = true)
    (hne : es ≠ []) (v : Expr) :
    Alike (Passed.Beside k.Meets) (selectors s v (k.behind (ss ++ subscript es)))
      (selectors s v (k.behind (ss ++ subscripts es))) := by
  rw [behind_append, behind_append]
  refine selectors_within (fun ts hts => meets_behind hts hes hne) (fun _ => ⟨nofun, ?_⟩)
    (fun _ e => ?_) v ⟨ss, hss, rfl, rfl⟩
  · rw [current_subscripts hne]
    exact nofun
  · exact (selectors_nests hes hne).mono fun _ _ h => ⟨h.1, .inl h.2⟩

/-! ### Texts -/

open Recoding

theorem listed_erasing (ps : List (List Token)) :
    (listed ps).map erasing.token = listed (ps.map (List.map erasing.token)) := by
  induction ps with
  | nil => rfl
  | cons p ps ih =>
    cases ps with
    | nil => rw [List.map_singleton, listed_singleton, listed_singleton]
    | cons q ps =>
      rw [List.map_cons] at ih
      rw [List.map_cons, List.map_cons, listed_cons, listed_cons, List.map_append, List.map_cons,
        erasing_ofSymbol, ih]

theorem subscript_erasing (es : List (List Token)) :
    (subscript es).map erasing.token = subscript (es.map (List.map erasing.token)) := by
  simp only [subscript, List.map_cons, List.map_append, List.map_nil, erasing_ofSymbol,
    listed_erasing]

theorem subscripts_erasing (es : List (List Token)) :
    (subscripts es).map erasing.token = subscripts (es.map (List.map erasing.token)) := by
  simp only [subscripts, List.map_flatMap, List.flatMap_map, subscript_erasing, List.map_singleton]

theorem between_erasing (r : List Token × List Token) :
    (between r).map erasing.token =
      between (r.map (List.map erasing.token) (List.map erasing.token)) := by
  simp only [between, List.map_append, List.map_cons, erasing_ofSymbol, Prod.map_fst, Prod.map_snd]

theorem arrayOf_erasing (rs : List (List Token × List Token)) :
    (arrayOf rs).map erasing.token =
      arrayOf (rs.map (Prod.map (List.map erasing.token) (List.map erasing.token))) := by
  have hkeyword (k : Keyword) : erasing.token (ofKeyword k) = ofKeyword k :=
    (ofKeyword_printable k).erasing .start
  simp only [arrayOf, arrayEnd, List.map_cons, List.map_append, List.map_nil, erasing_ofSymbol,
    hkeyword, listed_erasing, List.map_map, Function.comp_def, between_erasing]

theorem arraysOf_erasing (rs : List (List Token × List Token)) :
    (arraysOf rs).map erasing.token =
      arraysOf (rs.map (Prod.map (List.map erasing.token) (List.map erasing.token))) := by
  simp only [arraysOf, List.map_flatMap, List.flatMap_map, arrayOf_erasing, List.map_singleton]

/-- In front of a cursor that two cursors meet at, neither of them has got there. -/
theorem Cursor.Meets.iff {r : Cursor} (h : k.Meets c c') (hr : r.size ≤ k.size) :
    c = r ↔ c' = r := by
  rcases h with rfl | ⟨hc, hc'⟩
  · rfl
  · refine iff_of_false ?_ ?_
    · rintro rfl
      exact Nat.not_le_of_gt hc hr
    · rintro rfl
      exact Nat.not_le_of_gt hc' hr

/-- An array type is read as the same type in both notations. -/
theorem typeName_notations {rs : List (List Token × List Token)}
    (hrs : ∀ r ∈ rs, isPhrase 0 r.1 = true ∧ isPhrase 0 r.2 = true) (hne : rs ≠ [])
    (hc : c.Shows (arrayOf rs) d) (hc' : c'.Shows (arraysOf rs) d) (t : Ty) (r : Cursor) :
    (typeName s c).Succeeds (·.Like erasing.ty t r) ↔
      (typeName s c').Succeeds (·.Like erasing.ty t r) := by
  rw [taken_like_iff (erasing.typeName_cursor s c), taken_like_iff (erasing.typeName_cursor s c'),
    hc, hc', arrayOf_erasing, arraysOf_erasing]
  refine (typeName_nests ?_ ?_).succeeds_iff ?_
  · refine List.forall_mem_map.2 fun r hr => ?_
    rw [Prod.map_fst, Prod.map_snd, isPhrase_erasing, isPhrase_erasing]
    exact hrs r hr
  · exact fun h => hne (List.map_eq_nil_iff.1 h)
  · rintro t t' ⟨hvalue, hrest⟩
    rw [Taken.is_iff, Taken.is_iff, hvalue, hrest]

/-- Behind the name of a variable and any selectors, indices are read as the same expression in both
notations, in a place to assign to and in an expression. -/
theorem indices_notations (hss : isPhrase 0 ss = true)
    (hcall : ss.head?.map (·.kind) ≠ some (.symbol .openParen))
    (hes : ∀ e ∈ es, isPhrase 0 e = true) (hne : es ≠ []) {name' : Located Name}
    (hname : name.value = name'.value) (hc : c.Shows (ss ++ subscript es) k)
    (hc' : c'.Shows (ss ++ subscripts es) k) (v : Expr) {r : Cursor} (hr : r.size ≤ k.size) :
    ((designator s name c).Succeeds (·.Like erasing.expr v r) ↔
      (designator s name' c').Succeeds (·.Like erasing.expr v r)) ∧
    ((named s name c).Succeeds (·.Like erasing.expr v r) ↔
      (named s name' c').Succeeds (·.Like erasing.expr v r)) := by
  have hlocated : erasing.located erasing.name name = erasing.located erasing.name name' := by
    simp only [located, hname]
    rfl
  -- without positions both notations start from one phrase
  have hss' : isPhrase 0 (ss.map erasing.token) = true := by
    rw [isPhrase_erasing]
    exact hss
  have hcall' : (ss.map erasing.token).head?.map (·.kind) ≠ some (.symbol .openParen) := by
    rw [List.head?_map, Option.map_map]
    exact hcall
  have hes' : ∀ e ∈ es.map (List.map erasing.token), isPhrase 0 e = true := by
    refine List.forall_mem_map.2 fun e he => ?_
    rw [isPhrase_erasing]
    exact hes e he
  have hne' : es.map (List.map erasing.token) ≠ [] := fun h => hne (List.map_eq_nil_iff.1 h)
  have hselectors := selectors_subscripts (s := erasing.scopes s) (k := erasing.cursor k) hss' hes'
    hne'
  have hsame : ∀ {b b' : Cursor} (t : Passed b Expr) (t' : Passed b' Expr),
      Passed.Beside (erasing.cursor k).Meets t t' →
        (t.Is v (erasing.cursor r) ↔ t'.Is v (erasing.cursor r)) := by
    rintro b b' t t' ⟨hvalue, hrest⟩
    rw [Passed.is_iff, Passed.is_iff, hvalue,
      hrest.iff (by simpa only [size_cursor] using hr)]
  constructor
  · rw [passed_like_iff (erasing.designator_cursor s name c),
      passed_like_iff (erasing.designator_cursor s name' c'), hlocated, hc, hc', List.map_append,
      List.map_append, subscript_erasing, subscripts_erasing]
    exact (designator_alike hselectors _).succeeds_iff hsame
  · rw [passed_like_iff (erasing.named_cursor s name c),
      passed_like_iff (erasing.named_cursor s name' c'), hlocated, hc, hc', List.map_append,
      List.map_append, subscript_erasing, subscripts_erasing]
    refine (named_alike ?_ ?_ ?_ hselectors _).succeeds_iff hsame
    · rw [behind_append]
      exact behind_openParen hcall' nofun
    · rw [behind_append]
      refine behind_openParen hcall' ?_
      rw [current_subscripts hne']
      exact nofun
    · rw [behind_append, behind_append]
      exact meets_behind hss' hes' hne'

end MiniPascal
