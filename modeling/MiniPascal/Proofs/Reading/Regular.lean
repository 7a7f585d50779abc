import MiniPascal.Proofs.Checked.Regular
import MiniPascal.Proofs.Reading.Everywhere

/-! Types that are read are regular. -/

namespace MiniPascal

namespace Cursor

theorem identifiers_length {c : Cursor} :
    Read.Ensures c.identifiers fun t => t.value.length + t.rest.size ≤ c.size := by
  unfold identifiers
  refine .step ?_
  rintro ⟨name, c₁, h₁⟩
  refine .step fun o => ?_
  rcases o with _ | ⟨_, c₂, h₂⟩
  · refine .pure ?_
    dsimp only [List.length_singleton]
    omega
  · refine .bind identifiers_length ?_
    rintro ⟨names, c₃, h₃⟩ hn
    refine .pure ?_
    dsimp only [Taken.after, List.length_cons] at hn ⊢
    omega
termination_by c.size

end Cursor

/-- What a call stands for has the property of all visible declarations. -/
theorem Scopes.All.lookupRoutine {P : Declaration → Prop} {s : Scopes} (hs : s.All P)
    {n : Located Name} {r : Routine} (h : s.lookupRoutine n = .ok r) : P (.routine r) := by
  obtain ⟨before, frame, after, hframes, hf, -⟩ :=
    innermostRoutine?_eq_some.1 (lookupRoutine_eq_ok.1 h)
  obtain ⟨m, hm, -⟩ := Scope.get?_mem hf
  have hframe : frame ∈ s.frames := by
    rw [hframes]
    exact List.mem_append_right _ List.mem_cons_self
  have hall : ∀ f ∈ s.frames, f.All P := by
    intro f hmem
    rcases List.mem_append.1 hmem with hmem | hmem
    · obtain ⟨l, hl, hmem⟩ := List.mem_flatMap.1 hmem
      rcases List.mem_cons.1 hmem with rfl | hmem
      · exact (hs.levels l hl).2
      · cases List.mem_singleton.1 hmem
        exact (hs.levels l hl).1
    · cases List.mem_singleton.1 hmem
      exact hs.globals
  exact hall frame hframe _ hm

section

variable {N : Nat} {S : List Stmt → Prop}

theorem Declaration.Meets.paramTypes {T : Ty → Prop} {r : Routine}
    (h : (Declaration.routine r).Meets T S) : ∀ t ∈ r.paramTypes, T t := by
  cases h with
  | routine hp =>
    intro t ht
    obtain ⟨⟨n, u⟩, hv, rfl⟩ := List.mem_map.1 ht
    obtain ⟨p, he⟩ := Scope.mem_vars.1 hv
    cases hp _ he with
    | var ht => exact ht

/-- Where all that is visible is of regular types, names stand for variables and routines of such
types. -/
theorem Scopes.All.context_regular {s : Scopes}
    (hs : s.All (Declaration.Meets (Ty.Regular N) S)) : s.context.Regular N where
  var := by
    rintro st n t ⟨p, q, h⟩
    cases hs.lookup h with
    | var ht => exact ht
  params := by
    rintro symbol params returns ⟨n, r, h, -, rfl, -⟩
    exact (hs.lookupRoutine h).paramTypes
  returns := by
    rintro symbol params returns ⟨n, r, h, -, -, rfl⟩
    cases hs.lookupRoutine h with
    | routine _ hr => exact hr

end

namespace Grammar

open Cursor

variable {N : Nat}

theorem nestArrays_tidy {element : Ty} (h : element.Tidy N) (rs : List (Expr × Expr)) :
    (nestArrays rs element).Tidy N := by
  induction rs with
  | nil => exact h
  | cons r rs ih =>
    rw [nestArrays, List.foldr_cons, Ty.Tidy]
    exact ih

/-- The fields of a record that has been read in part. -/
structure TidyFields (N : Nat) (fields : List (Name × Ty)) : Prop where
  types : Ty.AllTidy N fields
  nodup : (fields.map fun f => f.1.canonical).Nodup

theorem addFields_tidy {t : Ty} (ht : t.Tidy N) {names : List (Located Name)}
    {fields : List (Name × Ty)} (hf : TidyFields N fields) :
    Read.Ensures (addFields fields t names) fun fs =>
      TidyFields N fs ∧ fs.length = fields.length + names.length := by
  induction names generalizing fields with
  | nil => exact .ok ⟨hf, rfl⟩
  | cons n names ih =>
    unfold addFields
    split
    · exact .error
    · rename_i hnew
      have hone : Ty.AllTidy N [(n.value, t)] := ⟨ht, trivial⟩
      have hnodup : ((fields ++ [(n.value, t)]).map fun f => f.1.canonical).Nodup := by
        rw [List.map_append, List.map_singleton, List.nodup_append_comm, List.singleton_append,
          List.nodup_cons]
        refine ⟨?_, hf.nodup⟩
        intro hmem
        obtain ⟨f, hf, he⟩ := List.mem_map.1 hmem
        exact hnew (List.any_eq_true.2 ⟨f, hf, (Name.beq_iff _ _).2 he⟩)
      refine (ih ⟨Ty.allTidy_append.2 ⟨hf.types, hone⟩, hnodup⟩).mono ?_
      rintro fs ⟨hfs, hl⟩
      refine ⟨hfs, ?_⟩
      simp only [hl, List.length_append, List.length_cons, List.length_nil]
      omega

section

set_option linter.unusedSectionVars false

variable {s : Scopes} {S : List Stmt → Prop} (hs : s.All (Declaration.Meets (Ty.Regular N) S))
include hs

theorem declaredType_tidy (name : Located Name) :
    Read.Ensures (declaredType s name) (Ty.Tidy N) := by
  unfold declaredType
  refine .bind (Read.ensures_checked _) ?_
  rintro ⟨d, st⟩ hd
  have hd := hs.lookup hd
  rcases d with _ | _ | ⟨p, t⟩ | _
  · exact .error
  · exact .error
  · cases hd with
    | type ht => exact .pure ht.tidy
  · exact .error

mutual

theorem typeName_tidy {c : Cursor} (hc : c.size ≤ N) :
    Read.Ensures (typeName s c) fun t => t.value.Tidy N := by
  unfold typeName
  refine .step fun o => ?_
  rcases o with _ | ⟨_, c₁, h₁⟩
  swap
  · -- the name of a scalar type
    exact .pure (Ty.scalar_regular _).tidy
  refine .step fun o => ?_
  rcases o with _ | ⟨_, c₁, h₁⟩
  swap
  · -- an array
    refine .step ?_
    rintro ⟨_, c₂, h₂⟩
    refine .step ?_
    rintro ⟨rs, c₃, h₃⟩
    refine .step ?_
    rintro ⟨_, c₄, h₄⟩
    refine .step ?_
    rintro ⟨_, c₅, h₅⟩
    have hc₅ : c₅.size ≤ N := by omega
    exact .bind (typeName_tidy hc₅) fun t ht => .pure (nestArrays_tidy ht rs)
  refine .step fun o => ?_
  rcases o with _ | ⟨_, c₁, h₁⟩
  swap
  · -- a record
    have hc₁ : ([] : List (Name × Ty)).length + c₁.size ≤ N := by
      rw [List.length_nil]
      omega
    have hempty : TidyFields N [] := ⟨trivial, List.nodup_nil⟩
    refine .bind (fieldList_tidy hempty hc₁) ?_
    rintro t ⟨hf, hl⟩
    refine .step fun _ => .pure ?_
    exact ⟨hl, hf.nodup, hf.types⟩
  dsimp only
  split
  · refine .step ?_
    rintro ⟨name, c₁, h₁⟩
    exact .bind (declaredType_tidy hs name) fun t ht => .pure ht
  · exact unexpected_ensures
termination_by c.size

theorem fieldList_tidy {fields : List (Name × Ty)} (hf : TidyFields N fields) {c : Cursor}
    (hc : fields.length + c.size ≤ N) :
    Read.Ensures (fieldList s fields c) fun t =>
      TidyFields N t.value ∧ t.value.length ≤ N := by
  unfold fieldList
  split
  · refine .bind identifiers_length ?_
    rintro ⟨names, c₁, h₁⟩ hn
    refine .step ?_
    rintro ⟨_, c₂, h₂⟩
    dsimp only at hn
    have hc₂ : c₂.size ≤ N := by omega
    refine .bind (typeName_tidy hc₂) ?_
    rintro ⟨t, c₃, h₃⟩ ht
    refine .bind (addFields_tidy ht hf) ?_
    rintro fields ⟨hf, hl⟩
    refine .step fun o => ?_
    rcases o with _ | ⟨_, c₄, h₄⟩
    · refine .pure ⟨hf, ?_⟩
      dsimp only [Taken.passed, Taken.after]
      omega
    · have hc₄ : fields.length + c₄.size ≤ N := by omega
      exact .bind (fieldList_tidy hf hc₄) fun t ht => .pure ht
  · exact .pure ⟨hf, Nat.le_trans (Nat.le_add_right _ _) hc⟩
termination_by c.size

end

end

/-- Types are regular and statements obey the rules for variables and routines of regular types. -/
theorem inherits_regular (N : Nat) :
    Inherits N (Ty.Regular N) fun ss => ∀ st ∈ ss, st.Regular N where
  sound _ ht := ht.wellFormed
  type {s c} hs hc hN t ht := by
    have hsound := hs.sound_of_meets fun _ => Ty.Regular.wellFormed
    exact ⟨(typeName_wellFormed hsound hc t ht).1, typeName_tidy hs hN t ht⟩
  body {s c} hs hc _ t ht st hst := by
    have hsound := hs.sound_of_meets fun _ => Ty.Regular.wellFormed
    cases (compound_checked hsound false hc t ht).checked with
    | block hss => exact ⟨s.context, hs.context_regular, hss st hst⟩

end Grammar

/-- All types of a program that has been read are regular, and its statements use variables and
routines of regular types. -/
theorem Program.ofText_regular {text name : String} {p : Program} (h : ofText text name = .ok p) :
    p.Meets (Ty.Regular text.length) fun ss => ∀ st ∈ ss, st.Regular text.length :=
  ofText_meets (Grammar.inherits_regular text.length) h

/-- The records of a program that has been read have no more fields than the text has characters. -/
theorem Program.ofText_narrow {text name : String} {p : Program}
    (h : ofText text name = .ok p) : ∀ v ∈ p.scope.vars, v.2.Narrow text.length := by
  rintro ⟨n, t⟩ hv
  obtain ⟨q, hq⟩ := Scope.mem_vars.1 hv
  cases (ofText_regular h).scope _ hq with
  | var ht => exact ht.tidy.narrow

end MiniPascal
