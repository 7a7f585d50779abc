import MiniPascal.Proofs.Lowering.Expression
import MiniPascal.Proofs.Phrase.Array
import MiniPascal.Proofs.Reading.TypeName

/-! The ranges that indices select in. -/

namespace MiniPascal

open Grammar Token Cursor Read Recoding

/-! ### Ranges of types -/

/-- The type has these bounds, those of its elements' types included, from the outermost on. -/
inductive Ty.Ranged : Ty → List (Int64 × Int64) → Prop
  | nil {t : Ty} : Ranged t []
  | cons {low high : Expr} {t : Ty} {b : Int64 × Int64} {bs : List (Int64 × Int64)} :
    (Ty.array low high t).bounds = some b → t.Ranged bs → Ranged (.array low high t) (b :: bs)

/-- The bounds of ranges. -/
def Grammar.Bounds : List (Expr × Expr) → List (Int64 × Int64) → Prop :=
  List.Forall₂ fun r b => (Ty.array r.1 r.2 .integer).bounds = some b

theorem nestArrays_ranged {rs : List (Expr × Expr)} {bs : List (Int64 × Int64)}
    (h : Grammar.Bounds rs bs) (t : Ty) : (nestArrays rs t).Ranged bs := by
  induction h with
  | nil => exact .nil
  | cons hr _ ih => exact .cons hr ih

/-- Positions do not matter for bounds. -/
theorem Ty.Ranged.congr {t t' : Ty} {bs : List (Int64 × Int64)} (h : t.Ranged bs)
    (htt' : erasing.ty t' = erasing.ty t) : t'.Ranged bs := by
  induction h generalizing t' with
  | nil => exact .nil
  | cons hb _ ih =>
    have hbounds := congrArg Ty.bounds htt'
    rw [bounds_ty, bounds_ty, hb] at hbounds
    cases t' with
    | scalar | record => cases hbounds
    | array low' high' u =>
      simp only [ty, Ty.array.injEq] at htt'
      exact .cons hbounds (ih htt'.2.2)

theorem range_bounds (s : Scopes) (c : Cursor) :
    Ensures (range s c) fun t => ∃ b, (Ty.array t.value.1 t.value.2 .integer).bounds = some b := by
  unfold range
  refine .step fun ⟨low, c₁, h₁⟩ => .bind (boundOf_ensures _) ?_
  rintro _ ⟨l, p, hl, rfl⟩
  refine .step fun ⟨_, c₂, h₂⟩ => .step fun ⟨high, c₃, h₃⟩ => .bind (boundOf_ensures _) ?_
  rintro _ ⟨h, q, hh, rfl⟩
  refine .step fun _ => .pure ⟨(l, h), ?_⟩
  simp only [Taken.after, Ty.bounds, Expr.asConstant_ofConstant hl, Expr.asConstant_ofConstant hh]
  rfl

theorem ranges_bounds (s : Scopes) (c : Cursor) :
    Ensures (ranges s c) fun t => ∃ bs, Grammar.Bounds t.value bs := by
  unfold ranges
  refine .bind (range_bounds s c) ?_
  rintro ⟨r, c₁, h₁⟩ ⟨b, hb⟩
  refine .step fun o => ?_
  rcases o with _ | ⟨_, c₂, h₂⟩
  · exact .pure ⟨[b], .cons hb .nil⟩
  · refine .bind (ranges_bounds s c₂) ?_
    rintro ⟨rs, c₃, h₃⟩ ⟨bs, hbs⟩
    exact .pure ⟨b :: bs, .cons hb hbs⟩
termination_by c.size

/-! ### Selecting -/

/-- An index, and the array that it selects in. -/
structure Subscript where
  position : Position
  array : Ty
  bounds : Int64 × Int64
  index : Expr
  bounds_eq : array.bounds = some bounds

/-- The second expression is selected from the first by subscripts, one after the other. -/
inductive Expr.Selects : Expr → List Subscript → Expr → Prop
  | nil {e : Expr} : Selects e [] e
  | cons {v e : Expr} {t : Ty} {u : Subscript} {us : List Subscript} : v.type = u.array →
    Selects (.index u.position t v u.index) us e → Selects v (u :: us) e

namespace Lowering

/-- An index counted from a low bound. -/
def countFrom (p : Position) (low : Int64) (index : Ir.Operand) : Step Ir.Operand := do
  if low = 0 then return index
  else
    let output ← newName p ".idx"
    push (.binary output .sub .i32 index (.int low))
    return .local output

/-- The place of an element, from that of its array. -/
def select (base : Ir.Operand) (u : Subscript) : Step Ir.Operand := do
  let index ← value u.index
  let index ← countFrom u.position u.bounds.1 index
  part u.position u.array base index

theorem rebase_eq {t : Ty} {b : Int64 × Int64} (h : t.bounds = some b) (p : Position)
    (index : Ir.Operand) : rebase p t index = countFrom p b.1 index := by
  unfold rebase countFrom
  rw [h]
  rfl

theorem place_index (p : Position) (t : Ty) (a i : Expr) :
    place (.index p t a i) = (do
      let base ← place a
      let index ← value i
      let index ← rebase p a.type index
      part p a.type base index : Step Ir.Operand) := by
  rw [place, lower_index]
  simp only [bind_assoc, pure_bind, asPlace, bind_pure]

end Lowering

/-- The code of what is selected: each index in turn is counted from the low bound of its array, and
selects an element. -/
theorem Expr.Selects.place {v e : Expr} {us : List Subscript} (h : v.Selects us e) :
    Lowering.place e = (do
      let base ← Lowering.place v
      us.foldlM Lowering.select base) := by
  induction h with
  | nil => simp only [List.foldlM_nil, bind_pure]
  | cons ht _ ih =>
    rename_i v _ t u us _
    rw [ih, Lowering.place_index, ht]
    simp only [List.foldlM_cons, Lowering.select, Lowering.rebase_eq u.bounds_eq, bind_assoc]

/-- Positions do not matter for what is selected. -/
theorem Expr.Selects.congr {v e e' : Expr} {us : List Subscript} (h : v.Selects us e)
    (he : erasing.expr e' = erasing.expr e) :
    ∃ v' us', v'.Selects us' e' ∧ erasing.expr v' = erasing.expr v ∧
      us'.map (·.bounds) = us.map (·.bounds) ∧
      us'.map (fun u => erasing.expr u.index) = us.map fun u => erasing.expr u.index := by
  induction h with
  | nil => exact ⟨e', [], .nil, he, rfl, rfl⟩
  | cons ht _ ih =>
    rename_i v _ t u us _
    obtain ⟨a, us', hselects, ha, hbounds, hindices⟩ := ih he
    cases a with
    | index p t' v' i =>
      simp only [expr, Expr.index.injEq] at ha
      obtain ⟨-, -, hv, hi⟩ := ha
      have htype : v'.type.bounds = some u.bounds := by
        have htypes := congrArg (fun e : Expr => e.type.bounds) hv
        simp only [type_expr, bounds_ty] at htypes
        rw [htypes, ht, u.bounds_eq]
      refine ⟨v', ⟨p, v'.type, u.bounds, i, htype⟩ :: us', .cons rfl hselects, hv, ?_, ?_⟩
      · rw [List.map_cons, List.map_cons, hbounds]
      · rw [List.map_cons, List.map_cons, hindices, hi]
    | int | double | bool | var | unary | binary | call | field => simp [expr] at ha

/-! ### Indices in the order of their ranges -/

/-- Indices that are read are those that expressions in their places are, and each selects in the
range in its place. -/
theorem indices_selects (s : Scopes) (v : Expr) (p : Position) (c : Cursor) :
    Ensures (indices s v p c) fun r => ∃ is, (expressions s c).Succeeds (·.Is is r.rest) ∧
      ∀ bs, v.type.Ranged bs → is.length = bs.length →
        ∃ us, us.map (·.bounds) = bs ∧ us.map (·.index) = is ∧ v.Selects us r.value := by
  rw [indices]
  refine .known fun i hi => ?_
  obtain ⟨i, c₁, h₁⟩ := i
  refine .bind (ensures_checked _) fun a ha => ?_
  obtain ⟨low, high, t, htype, -, rfl⟩ := Expr.checkIndex_ok ha
  refine .known fun o ho => ?_
  rw [expressions]
  rcases o with _ | ⟨token, c₂, h₂⟩
  · refine .pure ⟨[i], .step hi (.step ho (.pure ⟨_, rfl⟩)), fun bs hbs hlength => ?_⟩
    rw [htype] at hbs
    cases hbs with
    | nil => cases hlength
    | cons hb _ =>
      -- one index is left, so one range is
      obtain rfl := List.length_eq_zero_iff.1 (Nat.succ.inj hlength).symm
      exact ⟨[⟨p, v.type, _, i, by rw [htype, hb]⟩], rfl, rfl, .cons rfl .nil⟩
  · refine .bind (indices_selects s _ token.position c₂) ?_
    rintro ⟨e, c₃, h₃⟩ ⟨is, hes, hselects⟩
    refine .pure ⟨i :: is, .step hi (.step ho (.bind hes ?_)), fun bs hbs hlength => ?_⟩
    · rintro _ ⟨hlt, rfl⟩
      exact .pure ⟨_, rfl⟩
    · rw [htype] at hbs
      cases hbs with
      | nil => cases hlength
      | cons hb hbs =>
        obtain ⟨us, hbounds, hindices, husselects⟩ := hselects _ hbs (Nat.succ.inj hlength)
        refine ⟨⟨p, v.type, _, i, by rw [htype, hb]⟩ :: us, ?_, ?_, .cons rfl husselects⟩
        · rw [List.map_cons, hbounds]
        · rw [List.map_cons, hindices]
termination_by c.size

/-- The ranges of an array type are nested in the order in which they stand. -/
theorem typeName_ranges (s : Scopes) (c : Cursor) {u w : Token} (hu : u.kind = .keyword .kwArray)
    (hw : w.kind = .symbol .openSquare) :
    Ensures (typeName s ((c.push w).push u)) fun t =>
      ∃ rs d element, (ranges s c).Succeeds (·.Is rs d) ∧ t.value = nestArrays rs element := by
  obtain ⟨hlt, harray⟩ := typeName_array s c hu hw
  rw [harray, arrayRest]
  simp only [bind_assoc]
  refine .known fun ⟨rs, c₁, h₁⟩ hrs => .step fun ⟨_, c₂, h₂⟩ => .step fun ⟨_, c₃, h₃⟩ => ?_
  refine .step fun ⟨element, c₄, h₄⟩ => ?_
  exact .pure ⟨rs, c₁, element, ⟨_, hrs, _, rfl⟩, rfl⟩

/-- Arrays of several dimensions are arrays of arrays. An array type with several ranges is read as
the type that is nested in the order of its ranges. Behind a name and selectors, several indices in
one pair of brackets are read as they are in a pair of brackets each. And each of as many indices as
an array type has ranges selects in the range in its place, and is counted from its low bound. -/
theorem dimensions_nest (s : Scopes) :
    (∀ (rs : List (List Token × List Token)) (c c' d : Cursor), rs ≠ [] →
      (∀ r ∈ rs, isPhrase 0 r.1 = true ∧ isPhrase 0 r.2 = true) →
      c.Shows (arrayOf rs) d → c'.Shows (arraysOf rs) d → ∀ t r,
        ((typeName s c).Succeeds (·.Like erasing.ty t r) ↔
          (typeName s c').Succeeds (·.Like erasing.ty t r))) ∧
    (∀ (name name' : Located Name) (ss : List Token) (es : List (List Token)) (c c' d : Cursor),
      name.value = name'.value → isPhrase 0 ss = true →
      ss.head?.map (·.kind) ≠ some (.symbol .openParen) → es ≠ [] →
      (∀ e ∈ es, isPhrase 0 e = true) →
      c.Shows (ss ++ subscript es) d → c'.Shows (ss ++ subscripts es) d → ∀ v r, r.size ≤ d.size →
        ((designator s name c).Succeeds (·.Like erasing.expr v r) ↔
          (designator s name' c').Succeeds (·.Like erasing.expr v r)) ∧
        ((named s name c).Succeeds (·.Like erasing.expr v r) ↔
          (named s name' c').Succeeds (·.Like erasing.expr v r))) ∧
    ∀ (c r : Cursor) (u w : Token) (t : Ty), u.kind = .keyword .kwArray →
      w.kind = .symbol .openSquare → (typeName s ((c.push w).push u)).Succeeds (·.Is t r) →
      ∃ rs d bs, (ranges s c).Succeeds (·.Is rs d) ∧ Grammar.Bounds rs bs ∧
        ∀ (s' : Scopes) (v e : Expr) (p : Position) (c' d' : Cursor),
          erasing.ty v.type = erasing.ty t → (indices s' v p c').Succeeds (·.Is e d') →
          ∃ is, (expressions s' c').Succeeds (·.Is is d') ∧ (is.length = bs.length →
            ∀ e', erasing.expr e' = erasing.expr e →
              ∃ v' us, erasing.expr v' = erasing.expr v ∧ us.map (·.bounds) = bs ∧
                us.map (fun u => erasing.expr u.index) = is.map erasing.expr ∧
                v'.Selects us e' ∧ Lowering.place e' = (do
                  let base ← Lowering.place v'
                  us.foldlM Lowering.select base)) := by
  refine ⟨?_, ?_, ?_⟩
  · intro rs c c' d hne hrs hc hc' t r
    exact typeName_notations hrs hne hc hc' t r
  · intro name name' ss es c c' d hname hss hcall hne hes hc hc' v r hr
    exact indices_notations hss hcall hes hne hname hc hc' v hr
  · intro c r u w t hu hw ht
    obtain ⟨_, hread, hle, rfl⟩ := ht
    obtain ⟨rs, d, element, hranges, rfl⟩ := typeName_ranges s c hu hw _ hread
    obtain ⟨bs, hbs⟩ : ∃ bs, Grammar.Bounds rs bs := by
      obtain ⟨_, hread, hlt, rfl⟩ := hranges
      exact ranges_bounds s c _ hread
    refine ⟨rs, d, bs, hranges, hbs, ?_⟩
    intro s' v e p c' d' hv hindices
    obtain ⟨_, hread, hlt, rfl⟩ := hindices
    obtain ⟨is, hexpressions, hselects⟩ := indices_selects s' v p c' _ hread
    refine ⟨is, hexpressions, fun hlength e' he' => ?_⟩
    obtain ⟨us, hbounds, hindices, hus⟩ :=
      hselects bs ((nestArrays_ranged hbs element).congr hv) hlength
    -- the tree may have been read with other positions, which the code does not show
    obtain ⟨v', us', hus', hv', hbounds', hindices'⟩ := hus.congr he'
    refine ⟨v', us', hv', hbounds'.trans hbounds, ?_, hus', hus'.place⟩
    rw [hindices', ← hindices, List.map_map]
    rfl

/-- A matrix whose ranges differ, in both notations, and one of its elements. -/
theorem dimensions_nest_matrix :
    ∃ (s : Scopes) (t : Ty) (e : Expr) (a a' c c' b d : Cursor),
      onText .start "array[1..2, 3..5] of integer;".toList ⟨1, 30⟩ = .ok a ∧
      onText .start "array[1..2] of array[3..5] of integer;".toList ⟨1, 39⟩ = .ok a' ∧
      (typeName s a).Succeeds (·.Like erasing.ty t b) ∧
      (typeName s a').Succeeds (·.Like erasing.ty t b) ∧
      onText ⟨1, 2⟩ "[2, 4] := 7".toList ⟨1, 13⟩ = .ok c ∧
      onText ⟨1, 2⟩ "[2][4] := 7".toList ⟨1, 13⟩ = .ok c' ∧
      (designator s ⟨.start, ⟨"a"⟩⟩ c).Succeeds (·.Like erasing.expr e d) ∧
      (designator s ⟨.start, ⟨"a"⟩⟩ c').Succeeds (·.Like erasing.expr e d) ∧
      ∃ v us, v.Selects us e ∧ erasing.expr v = .var .start t ⟨"a"⟩ .global ∧
        us.map (·.bounds) = [(1, 2), (3, 5)] ∧
        us.map (fun u => erasing.expr u.index) = [.int .start 2, .int .start 4] ∧
        Lowering.place e = (do
          let base ← Lowering.place v
          us.foldlM Lowering.select base) := by
  let row : Ty := .array (.int .start 3) (.int .start 5) .integer
  let t : Ty := .array (.int .start 1) (.int .start 2) row
  let s : Scopes := ⟨⟨[(⟨"a"⟩, .var .start t)]⟩, []⟩
  let rs : List (List Token × List Token) := [([ofNat 1], [ofNat 2]), ([ofNat 3], [ofNat 5])]
  let es : List (List Token) := [[ofNat 2], [ofNat 4]]
  let e : Expr := .index .start .integer (.index .start row (.var .start t ⟨"a"⟩ .global)
    (.int .start 2)) (.int .start 4)
  let b : Cursor := ⟨ofSymbol .semicolon, [], .start⟩
  let d : Cursor := ⟨ofSymbol .assign, [.ok (ofNat 7)], .start⟩
  let element : Cursor := b.push (ofKeyword .kwInteger)
  obtain ⟨a, hreada, ha⟩ : ∃ a, onText .start "array[1..2, 3..5] of integer;".toList ⟨1, 30⟩ =
      .ok a ∧ a.Shows (arrayOf rs) element := exists_shows (by cbv)
  obtain ⟨a', hreada', ha'⟩ : ∃ a',
      onText .start "array[1..2] of array[3..5] of integer;".toList ⟨1, 39⟩ = .ok a' ∧
        a'.Shows (arraysOf rs) element := exists_shows (by cbv)
  obtain ⟨c, hread, hc⟩ : ∃ c, onText ⟨1, 2⟩ "[2, 4] := 7".toList ⟨1, 13⟩ = .ok c ∧
      c.Shows ([] ++ subscript es) d := exists_shows (by cbv)
  obtain ⟨c', hread', hc'⟩ : ∃ c', onText ⟨1, 2⟩ "[2][4] := 7".toList ⟨1, 13⟩ = .ok c' ∧
      c'.Shows ([] ++ subscripts es) d := exists_shows (by cbv)
  obtain ⟨htypes, hindices, hselects⟩ := dimensions_nest s
  have htype : (typeName s a).Succeeds (·.Like erasing.ty t b) := by
    rw [taken_like_iff (erasing.typeName_cursor s a), ha]
    exact ⟨⟨t, erasing.cursor b, by decide⟩, by cbv, _, rfl⟩
  have hindex : (designator s ⟨.start, ⟨"a"⟩⟩ c).Succeeds (·.Like erasing.expr e d) := by
    rw [passed_like_iff (erasing.designator_cursor s _ c), hc]
    exact ⟨⟨e, erasing.cursor d, by decide⟩, by cbv, _, rfl⟩
  have hnested := (htypes rs a a' element (by decide) (by decide) ha ha' t b).1 htype
  have hindex' := ((hindices _ _ [] es c c' d rfl (by decide) (by decide) (by decide) (by decide)
    hc hc' e d (Nat.le_refl _)).1).1 hindex
  -- the type behind its first bracket, and the indices behind theirs
  let c₁ : Cursor := element.behind (listed (rs.map between) ++ arrayEnd)
  let c₂ : Cursor := d.behind (listed es ++ [ofSymbol .closeSquare])
  have hread₁ : (typeName s ((c₁.push (ofSymbol .openSquare)).push (ofKeyword .kwArray))).Succeeds
      (·.Is t b) := ⟨⟨t, b, by decide⟩, by cbv, _, rfl⟩
  have hread₂ : (indices s (.var .start t ⟨"a"⟩ .global) .start c₂).Succeeds
      (·.Is e (d.push (ofSymbol .closeSquare))) :=
    ⟨⟨e, d.push (ofSymbol .closeSquare), by decide⟩, by cbv, _, rfl⟩
  have hranges : ranges s c₁ = .ok
      ⟨[(.int .start 1, .int .start 2), (.int .start 3, .int .start 5)],
        element.behind arrayEnd, by decide⟩ := by cbv
  have hexpressions : expressions s c₂ = .ok
      ⟨[.int .start 2, .int .start 4], d.push (ofSymbol .closeSquare), by decide⟩ := by cbv
  obtain ⟨rs', d', bs, ⟨_, hrs', hlt, rfl⟩, hbs, hall⟩ := hselects c₁ b _ _ t rfl rfl hread₁
  rw [hranges] at hrs'
  cases hrs'
  obtain _ | ⟨hb₁, _ | ⟨hb₂, _ | _⟩⟩ := hbs
  cases hb₁
  cases hb₂
  obtain ⟨is, ⟨_, his, hlt', rfl⟩, hall⟩ := hall s _ e _ c₂ _ rfl hread₂
  rw [hexpressions] at his
  cases his
  obtain ⟨v, us, hv, hbounds, hus, hselects, hcode⟩ := hall rfl e rfl
  exact ⟨s, t, e, a, a', c, c', b, d, hreada, hreada', htype, hnested, hread, hread', hindex,
    hindex', v, us, hselects, hv, hbounds, hus, hcode⟩

end MiniPascal
